import Mathlib.Algebra.Order.BigOperators.Group.List
import Mathlib.Algebra.Order.Floor.Semiring
import Mathlib.Data.Finset.Interval
import Mathlib.Order.Interval.Finset.Nat
import Mathlib.Tactic.GCongr
import Mathlib.Tactic.Linarith
import Mathlib.Tactic.Positivity
import Mathlib.Tactic.Ring

universe u v

namespace ProxySplit.Lib.Roulette

variable {α : Type u} {K : Type v} [Field K] [LinearOrder K] [IsStrictOrderedRing K]

def spin (r : K) : K → List (α × K) → Option α
  | _, [] => none
  | c, (p, w) :: rest => if r ≤ c + w then some p else spin r (c + w) rest

def total (l : List (α × K)) : K := (l.map Prod.snd).sum

variable {l pre post : List (α × K)} {p : α} {r c w : K}

omit [LinearOrder K] [IsStrictOrderedRing K] in
@[simp] theorem total_nil : total ([] : List (α × K)) = 0 := rfl

omit [LinearOrder K] [IsStrictOrderedRing K] in
@[simp] theorem total_cons (e : α × K) (l : List (α × K)) : total (e :: l) = e.2 + total l := rfl

omit [LinearOrder K] [IsStrictOrderedRing K] in
@[simp] theorem total_append (l l' : List (α × K)) : total (l ++ l') = total l + total l' := by
  simp [total]

theorem total_nonneg (h : ∀ e ∈ l, 0 < e.2) : 0 ≤ total l := by
  refine List.sum_nonneg fun x hx => ?_
  obtain ⟨e, he, rfl⟩ := List.mem_map.mp hx
  exact (h e he).le

omit [IsStrictOrderedRing K] in
theorem mem_of_spin (h : spin r c l = some p) : p ∈ l.map Prod.fst := by
  induction l generalizing c with
  | nil => cases h
  | cons e rest ih =>
    rw [spin] at h
    split at h
    · cases h
      exact List.mem_cons_self
    · exact List.mem_cons_of_mem _ (ih h)

omit [IsStrictOrderedRing K] in
theorem spin_isSome (hne : l ≠ []) (hpos : ∀ e ∈ l, 0 < e.2) (h : r ≤ c + total l) : (spin r c l).isSome := by
  induction l generalizing c with
  | nil => exact absurd rfl hne
  | cons e rest ih =>
    rw [spin]
    split
    · rfl
    · next hnot =>
      rw [total_cons, ← add_assoc] at h
      refine ih ?_ (fun e he => hpos e (List.mem_cons_of_mem _ he)) h
      rintro rfl
      exact hnot (by simpa using h)

theorem spin_eq_some_iff (hpos : ∀ e ∈ pre ++ (p, w) :: post, 0 < e.2)
    (hnodup : ((pre ++ (p, w) :: post).map Prod.fst).Nodup) : spin r c (pre ++ (p, w) :: post) = some p ↔
      (pre = [] ∨ c + total pre < r) ∧ r ≤ c + total pre + w := by
  induction pre generalizing c with
  | nil =>
    have hout : p ∉ post.map Prod.fst := (List.nodup_cons.mp hnodup).1
    rw [List.nil_append, spin, total_nil, add_zero]
    split
    · next h => simp [h]
    · next h => exact iff_of_false (fun hp => hout (mem_of_spin hp)) fun hp => h hp.2
  | cons e pre ih =>
    obtain ⟨q, x⟩ := e
    obtain ⟨hx, hrest⟩ := List.forall_mem_cons.mp hpos
    have hpre : 0 ≤ total pre := total_nonneg fun e he => hrest e (List.mem_append_left _ he)
    have hq : q ≠ p := by
      rintro rfl
      exact (List.nodup_cons.mp hnodup).1 (by simp)
    rw [List.cons_append, spin, total_cons, ← add_assoc]
    split
    · next hle =>
      refine iff_of_false (fun h => hq (Option.some_inj.mp h)) fun h => ?_
      have := h.1.resolve_left (List.cons_ne_nil _ _)
      linarith
    · next hlt =>
      rw [ih hrest (List.nodup_cons.mp hnodup).2]
      refine and_congr_left fun _ => ?_
      constructor
      · rintro (rfl | h)
        · exact .inr (by simpa using hlt)
        · exact .inr h
      · exact fun h => .inr (h.resolve_left (List.cons_ne_nil _ _))

variable [FloorSemiring K]

/-- The whole numbers from `a`, without it unless nothing lies before, to `b` are as many as the distance of
the two says, but for one. -/
theorem abs_card_sub_le {a b : K} {n : ℕ} (ha : 0 ≤ a) (hab : a ≤ b) (hb : b ≤ n) {first : Prop}
    [Decidable first] (hfirst : first → a = 0) :
    |(((Finset.range n).filter fun k : ℕ => (first ∨ a < k) ∧ (k : K) ≤ b).card : K) - (b - a)| ≤ 1 := by
  obtain ⟨m, hm⟩ : ∃ m, m = min n (⌊b⌋₊ + 1) := ⟨_, rfl⟩
  have hlow : b ≤ m := by
    rcases min_choice n (⌊b⌋₊ + 1) with h | h
    · rwa [hm, h]
    · rw [hm, h, Nat.cast_add, Nat.cast_one]
      exact (Nat.lt_floor_add_one b).le
  have hhigh : (m : K) ≤ b + 1 := by
    have hle : (m : K) ≤ ⌊b⌋₊ + 1 := by exact_mod_cast hm.le.trans (min_le_right _ _)
    have := Nat.floor_le (ha.trans hab)
    linarith
  by_cases h : first
  · have heq : ((Finset.range n).filter fun k : ℕ => (first ∨ a < k) ∧ (k : K) ≤ b) = Finset.range m := by
      ext k
      simp only [Finset.mem_filter, Finset.mem_range, h, true_or, true_and, hm, lt_min_iff, Nat.lt_succ_iff,
        ← Nat.le_floor_iff (ha.trans hab)]
    rw [heq, Finset.card_range, hfirst h, abs_le]
    constructor <;> linarith
  · have heq : ((Finset.range n).filter fun k : ℕ => (first ∨ a < k) ∧ (k : K) ≤ b) = Finset.Ioo ⌊a⌋₊ m := by
      ext k
      simp only [Finset.mem_filter, Finset.mem_range, h, false_or, Finset.mem_Ioo, hm, lt_min_iff,
        Nat.lt_succ_iff, ← Nat.le_floor_iff (ha.trans hab), ← Nat.floor_lt ha]
      tauto
    have hfloor := Nat.floor_le ha
    have hceil := Nat.lt_floor_add_one a
    have hle : ⌊a⌋₊ ≤ m := Nat.cast_le.mp (hfloor.trans (hab.trans hlow))
    rw [heq, Nat.card_Ioo, abs_le]
    rcases hle.lt_or_eq with hlt | heq
    · have hcast : ((m - ⌊a⌋₊ - 1 : ℕ) : K) = m - ⌊a⌋₊ - 1 := by
        rw [Nat.sub_sub, Nat.cast_sub hlt, Nat.cast_succ, sub_sub]
      rw [hcast]
      constructor <;> linarith
    · rw [heq, Nat.sub_self, Nat.zero_sub, Nat.cast_zero]
      rw [heq] at hfloor
      constructor <;> linarith

theorem abs_card_spin_sub_le [DecidableEq α] (hpos : ∀ e ∈ l, 0 < e.2) (hnodup : (l.map Prod.fst).Nodup)
    (hmem : (p, w) ∈ l) {n : ℕ} (hn : 0 < n) :
    |(((Finset.range n).filter fun k : ℕ => spin ((k : K) / n * total l) 0 l = some p).card : K) -
      n * (w / total l)| ≤ 1 := by
  obtain ⟨pre, post, rfl⟩ := List.append_of_mem hmem
  have hw : 0 < w := hpos _ hmem
  have hpre : 0 ≤ total pre := total_nonneg fun e he => hpos e (List.mem_append_left _ he)
  have hpost : 0 ≤ total post :=
    total_nonneg fun e he => hpos e (List.mem_append_right _ (List.mem_cons_of_mem _ he))
  obtain ⟨t, ht⟩ : ∃ t, t = total (pre ++ (p, w) :: post) := ⟨_, rfl⟩
  have htotal : t = total pre + (w + total post) := by rw [ht, total_append, total_cons]
  have htpos : 0 < t := by linarith
  have hnpos : (0 : K) < n := Nat.cast_pos.mpr hn
  have hhit : ∀ k : ℕ, spin ((k : K) / n * t) 0 (pre ++ (p, w) :: post) = some p ↔
      (pre = [] ∨ total pre * n / t < k) ∧ (k : K) ≤ (total pre + w) * n / t := by
    intro k
    rw [spin_eq_some_iff hpos hnodup, zero_add, div_mul_eq_mul_div, lt_div_iff₀ hnpos, div_le_iff₀ hnpos,
      div_lt_iff₀ htpos, le_div_iff₀ htpos]
  have hsub : (total pre + w) * n / t - total pre * n / t = n * (w / t) := by ring
  simp only [← ht, hhit]
  rw [← hsub]
  refine abs_card_sub_le (by positivity) ?_ ?_ fun hnil => ?_
  · gcongr
    linarith
  · rw [div_le_iff₀ htpos, mul_comm]
    gcongr
    linarith
  · rw [hnil, total_nil, zero_mul, zero_div]

end ProxySplit.Lib.Roulette
