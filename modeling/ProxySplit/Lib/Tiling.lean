import Mathlib.Data.List.Basic
import Mathlib.Tactic.Linarith

universe u

namespace ProxySplit.Lib

/-- Consecutive non-empty intervals from `a` to `b`, both ends included. -/
def Tiles (b : Int) : Int → List (Int × Int) → Prop
  | a, [] => a = b + 1
  | a, (s, e) :: rest => s = a ∧ s ≤ e ∧ e ≤ b ∧ Tiles b (e + 1) rest

def slice {α : Type u} (l : List α) (s e : Int) : List α :=
  (l.drop s.toNat).take (e - s + 1).toNat

variable {α : Type u} {l : List α} {a b : Int} {ts : List (Int × Int)}

theorem slice_append {s e : Int} (hs : 0 ≤ s) (hse : s ≤ e + 1) (heb : e ≤ b) :
    slice l s e ++ slice l (e + 1) b = slice l s b := by
  have hdrop : (e + 1).toNat = s.toNat + (e - s + 1).toNat := by omega
  have htake : (b - s + 1).toNat = (e - s + 1).toNat + (b - (e + 1) + 1).toNat := by omega
  simp only [slice]
  rw [hdrop, ← List.drop_drop, htake, List.take_add]

theorem Tiles.le (h : Tiles b a ts) : a ≤ b + 1 := by
  cases ts with
  | nil => exact Int.le_of_eq h
  | cons t rest => obtain ⟨s, e⟩ := t; obtain ⟨rfl, hse, heb, -⟩ := h; omega

theorem Tiles.append {c : Int} {us : List (Int × Int)} (h : Tiles c a ts) (hcb : c ≤ b)
    (h' : Tiles b (c + 1) us) : Tiles b a (ts ++ us) := by
  induction ts generalizing a with
  | nil => rw [Tiles] at h; rw [h]; exact h'
  | cons t rest ih =>
    obtain ⟨s, e⟩ := t
    obtain ⟨hs, hse, hec, hrest⟩ := h
    exact ⟨hs, hse, hec.trans hcb, ih hrest⟩

theorem Tiles.flatMap_slice (h : Tiles b a ts) (ha : 0 ≤ a) :
    ts.flatMap (fun t => slice l t.1 t.2) = slice l a b := by
  induction ts generalizing a with
  | nil =>
    rw [Tiles] at h
    simp [slice, h]
  | cons t rest ih =>
    obtain ⟨s, e⟩ := t
    obtain ⟨rfl, hse, heb, hrest⟩ := h
    rw [List.flatMap_cons, ih hrest (by omega)]
    exact slice_append ha (by omega) heb

theorem Tiles.take_flatMap_slice (h : Tiles b a ts) (ha : 0 ≤ a) (k : Nat) :
    (ts.take k).flatMap (fun t => slice l t.1 t.2) <+: slice l a b := by
  rw [← h.flatMap_slice ha]
  conv_rhs => rw [← List.take_append_drop k ts, List.flatMap_append]
  exact List.prefix_append _ _

end ProxySplit.Lib
