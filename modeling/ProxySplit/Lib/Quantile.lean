import Mathlib.Algebra.BigOperators.Ring.List
import Mathlib.Algebra.Order.BigOperators.Group.List
import Mathlib.Algebra.Order.Field.Basic
import Mathlib.Data.List.GetD
import Mathlib.Tactic.Linarith

universe u

namespace ProxySplit.Lib

variable {K : Type u} [Field K] [LinearOrder K]

def massUpTo (l : List (K × K)) (x : K) : K := ((l.filter fun a => a.1 ≤ x).map Prod.snd).sum

/-- The least value that has the mass below it. -/
def IsQuantile (mass : K) (l : List (K × K)) (p : K) : Prop := ∀ x, p ≤ x ↔ mass ≤ massUpTo l x

def scan (mass last : K) : (sum : K) → List (K × K) → K
  | _, [] => last
  | sum, (value, weight) :: rest =>
    if mass ≤ sum + weight then value else scan mass last (sum + weight) rest

section Mass

variable {l l' : List (K × K)} {x k : K}

theorem massUpTo_perm (h : l.Perm l') : massUpTo l x = massUpTo l' x :=
  ((h.filter _).map _).sum_eq

theorem massUpTo_cons {a : K × K} :
    massUpTo (a :: l) x = (if a.1 ≤ x then a.2 else 0) + massUpTo l x := by
  by_cases ha : a.1 ≤ x
  · simp [massUpTo, ha]
  · simp [massUpTo, ha]

theorem massUpTo_append : massUpTo (l ++ l') x = massUpTo l x + massUpTo l' x := by
  simp [massUpTo]

theorem massUpTo_eq_zero (h : ∀ a ∈ l, x < a.1) : massUpTo l x = 0 := by
  have hnil : l.filter (fun a => a.1 ≤ x) = [] :=
    List.filter_eq_nil_iff.mpr fun a ha => by simpa using h a ha
  rw [massUpTo, hnil]
  rfl

theorem massUpTo_scale : massUpTo (l.map fun a => (a.1, k * a.2)) x = k * massUpTo l x := by
  simp only [massUpTo, List.filter_map, List.map_map, Function.comp_def]
  exact List.sum_map_mul_left ..

variable [IsStrictOrderedRing K]

theorem massUpTo_nonneg (h : ∀ a ∈ l, 0 ≤ a.2) : 0 ≤ massUpTo l x := by
  refine List.sum_nonneg fun w hw => ?_
  obtain ⟨a, ha, rfl⟩ := List.mem_map.mp hw
  exact h a (List.mem_of_mem_filter ha)

theorem massUpTo_raise {pre post : List (K × K)} {value value' weight : K} (h : value ≤ value')
    (hweight : 0 ≤ weight) : massUpTo (pre ++ (value', weight) :: post) x ≤
      massUpTo (pre ++ (value, weight) :: post) x := by
  rw [massUpTo_append, massUpTo_append, massUpTo_cons, massUpTo_cons]
  have hle : (if value' ≤ x then weight else 0) ≤ if value ≤ x then weight else 0 := by
    split
    · next hx => rw [if_pos (h.trans hx)]
    · split
      · exact hweight
      · exact le_rfl
  dsimp only
  linarith

end Mass

namespace IsQuantile

variable {l l' : List (K × K)} {mass mass' p p' k : K}

theorem le_of_massUpTo_le (h : IsQuantile mass l p) (h' : IsQuantile mass l' p')
    (hle : ∀ x, massUpTo l' x ≤ massUpTo l x) : p ≤ p' :=
  (h p').mpr (((h' p').mp le_rfl).trans (hle p'))

theorem unique (h : IsQuantile mass l p) (h' : IsQuantile mass l p') : p = p' :=
  le_antisymm (h.le_of_massUpTo_le h' fun _ => le_rfl) (h'.le_of_massUpTo_le h fun _ => le_rfl)

theorem lower_bound (h : IsQuantile mass l p) (hmass : 0 < mass) {b : K} (hb : ∀ a ∈ l, b ≤ a.1) :
    b ≤ p := by
  by_contra hlt
  have hzero : massUpTo l p = 0 := massUpTo_eq_zero fun a ha => (not_le.mp hlt).trans_le (hb a ha)
  have hle := (h p).mp le_rfl
  rw [hzero] at hle
  exact absurd hle (not_le.mpr hmass)

variable [IsStrictOrderedRing K]

theorem scale (h : IsQuantile mass l p) (hk : 0 < k) :
    IsQuantile (k * mass) (l.map fun a => (a.1, k * a.2)) p := by
  intro x
  rw [h x, massUpTo_scale, mul_le_mul_iff_right₀ hk]

theorem of_scan {last sum : K} (hsorted : l.Pairwise fun a b => a.1 ≤ b.1) (hpos : ∀ a ∈ l, 0 ≤ a.2)
    (hsum : sum < mass) (hreach : mass ≤ sum + (l.map Prod.snd).sum) (x : K) :
    scan mass last sum l ≤ x ↔ mass ≤ sum + massUpTo l x := by
  induction l generalizing sum with
  | nil =>
    rw [List.map_nil, List.sum_nil, add_zero] at hreach
    exact absurd hreach (not_le.mpr hsum)
  | cons a l ih =>
    obtain ⟨value, weight⟩ := a
    obtain ⟨hfirst, hrest⟩ := List.pairwise_cons.mp hsorted
    have hbelow : ¬ value ≤ x → massUpTo ((value, weight) :: l) x = 0 := by
      intro hx
      refine massUpTo_eq_zero fun a ha => ?_
      rcases List.mem_cons.mp ha with rfl | ha
      · exact not_le.mp hx
      · exact (not_le.mp hx).trans_le (hfirst a ha)
    rw [scan]
    split
    · next hstop =>
      constructor
      · intro hx
        have hnonneg : 0 ≤ massUpTo l x := massUpTo_nonneg fun a ha => hpos a (.tail _ ha)
        rw [massUpTo_cons, if_pos hx]
        dsimp only
        linarith
      · intro hle
        by_contra hx
        rw [hbelow hx, add_zero] at hle
        exact absurd hle (not_le.mpr hsum)
    · next hgo =>
      rw [List.map_cons, List.sum_cons, ← add_assoc] at hreach
      rw [ih hrest (fun a ha => hpos a (.tail _ ha)) (not_le.mp hgo) hreach]
      by_cases hx : value ≤ x
      · rw [massUpTo_cons, if_pos hx, add_assoc]
      · have hzero : massUpTo l x = 0 :=
          massUpTo_eq_zero fun a ha => (not_le.mp hx).trans_le (hfirst a ha)
        rw [hbelow hx, hzero]
        constructor
        · intro hle
          exact absurd hle (by linarith)
        · intro hle
          exact absurd hle (by linarith)

end IsQuantile

variable {values : List K} {i : Nat}

theorem getD_pos_iff (hsorted : values.Pairwise (· ≤ ·)) (hnonneg : ∀ x ∈ values, 0 ≤ x) :
    0 < values.getD i 0 ↔ values.countP (· = 0) ≤ i ∧ i < values.length := by
  induction values generalizing i with
  | nil => simp
  | cons x values ih =>
    obtain ⟨hfirst, hrest⟩ := List.pairwise_cons.mp hsorted
    rcases (hnonneg x (.head _)).eq_or_lt with hx | hx
    · rw [List.countP_cons_of_pos (by simpa using hx.symm)]
      cases i with
      | zero => simp [hx.symm]
      | succ i =>
        rw [List.getD_cons_succ, ih hrest fun y hy => hnonneg y (.tail _ hy), List.length_cons]
        omega
    · have hpos : ∀ y ∈ x :: values, 0 < y := by
        intro y hy
        rcases List.mem_cons.mp hy with rfl | hy
        · exact hx
        · exact hx.trans_le (hfirst y hy)
      have hcount : (x :: values).countP (· = 0) = 0 :=
        List.countP_eq_zero.mpr fun y hy => by simpa using (hpos y hy).ne'
      rw [hcount]
      constructor
      · intro hget
        refine ⟨Nat.zero_le _, ?_⟩
        by_contra hout
        rw [List.getD_eq_default _ _ (not_lt.mp hout)] at hget
        exact lt_irrefl _ hget
      · rintro ⟨-, hlt⟩
        rw [List.getD_eq_getElem _ _ hlt]
        exact hpos _ (List.getElem_mem hlt)

end ProxySplit.Lib
