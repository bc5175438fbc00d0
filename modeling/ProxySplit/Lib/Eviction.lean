import Mathlib.Algebra.Order.BigOperators.Group.List
import Mathlib.Algebra.Order.Group.Nat
import Mathlib.Algebra.GroupWithZero.Nat
import Mathlib.Data.List.Nodup
import Mathlib.Data.List.Perm.Subperm

universe u v

namespace ProxySplit.Lib

variable {α : Type u} {β : Type v} [LinearOrder β] {age : α → β} {size : α → Nat} {cap : Int}
  {l run kept : List α} {oldest x : α}

def NewestRun (age : α → β) (l run : List α) : Prop :=
  run.Sublist l ∧ ∀ x ∈ run, ∀ y ∈ l, age x ≤ age y → y ∈ run

def sizeSince (age : α → β) (size : α → Nat) (l : List α) (x : α) : Nat :=
  ((l.filter fun y => age x ≤ age y).map size).sum

/-- The longest run of the newest elements that fits. -/
structure NewestFit (age : α → β) (size : α → Nat) (cap : Int) (l kept : List α) : Prop where
  run : NewestRun age l kept
  fits : ((kept.map size).sum : Int) ≤ cap
  longest : ∀ run, NewestRun age l run → ((run.map size).sum : Int) ≤ cap → run.Sublist kept

theorem newestRun_since (age : α → β) (l : List α) (x : α) :
    NewestRun age l (l.filter fun y => age x ≤ age y) := by
  refine ⟨List.filter_sublist, fun y hy z hz hle => ?_⟩
  have hxy := of_decide_eq_true (List.mem_filter.mp hy).2
  exact List.mem_filter.mpr ⟨hz, decide_eq_true (hxy.trans hle)⟩

theorem sum_size_le {l l' : List α} (h : l.Sublist l') : (l.map size).sum ≤ (l'.map size).sum :=
  (h.map size).sum_le_sum fun _ _ => Nat.zero_le _

namespace NewestFit

theorem self (h : ((l.map size).sum : Int) ≤ cap) : NewestFit age size cap l l :=
  ⟨⟨List.Sublist.refl l, fun _ _ _ hy _ => hy⟩, h, fun _ hrun _ => hrun.1⟩

theorem mem_iff (hl : l.Nodup) (h : NewestFit age size cap l kept) (hx : x ∈ l) :
    x ∈ kept ↔ (sizeSince age size l x : Int) ≤ cap := by
  constructor
  · intro hkept
    have hsub : (l.filter fun y => age x ≤ age y).Subperm kept := by
      refine List.subperm_of_subset (hl.filter _) fun y hy => ?_
      obtain ⟨hy, hle⟩ := List.mem_filter.mp hy
      exact h.run.2 x hkept y hy (of_decide_eq_true hle)
    obtain ⟨l', hperm, hsub⟩ := hsub
    have hle : sizeSince age size l x ≤ (kept.map size).sum := by
      rw [sizeSince, ← (hperm.map size).sum_eq]
      exact sum_size_le hsub
    exact (Int.ofNat_le.mpr hle).trans h.fits
  · intro hfits
    refine (h.longest _ (newestRun_since age l x) hfits).subset ?_
    exact List.mem_filter.mpr ⟨hx, decide_eq_true le_rfl⟩

theorem of_evict {p : α → Bool} (hl : l.Nodup) (hmem : oldest ∈ l) (hp : ∀ y ∈ l, p y = true ↔ y ≠ oldest)
    (hold : ∀ y ∈ l, y ≠ oldest → age oldest < age y) (hfull : cap < (l.map size).sum)
    (h : NewestFit age size cap (l.filter p) kept) : NewestFit age size cap l kept where
  run := by
    refine ⟨h.run.1.trans List.filter_sublist, fun x hx y hy hle => ?_⟩
    obtain ⟨hxl, hpx⟩ := List.mem_filter.mp (h.run.1.subset hx)
    have hne : y ≠ oldest := by
      rintro rfl
      exact absurd hle (not_le.mpr (hold x hxl ((hp x hxl).mp hpx)))
    exact h.run.2 x hx y (List.mem_filter.mpr ⟨hy, (hp y hy).mpr hne⟩) hle
  fits := h.fits
  longest run hrun hfits := by
    have hout : oldest ∉ run := by
      intro hin
      have hall : l.Subperm run := by
        refine List.subperm_of_subset hl fun y hy => ?_
        by_cases hy' : y = oldest
        · rwa [hy']
        · exact hrun.2 oldest hin y hy (hold y hy hy').le
      have heq : run = l := hrun.1.eq_of_length_le hall.length_le
      rw [heq] at hfits
      exact absurd hfits (not_le.mpr hfull)
    refine h.longest run ⟨?_, fun x hx y hy => hrun.2 x hx y (List.mem_filter.mp hy).1⟩ hfits
    have hself : run.filter p = run := by
      refine List.filter_eq_self.mpr fun y hy => (hp y (hrun.1.subset hy)).mpr ?_
      rintro rfl
      exact hout hy
    rw [← hself]
    exact hrun.1.filter p

end NewestFit

end ProxySplit.Lib
