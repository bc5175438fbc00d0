import Mathlib.Data.List.Nodup

universe u

namespace ProxySplit.Lib

/-- A counting semaphore that hands its permits on first come, first served.  Nobody waits while
a permit is free. -/
structure Semaphore (ι : Type u) (permits : Nat) where
  holders : List ι
  waiters : List ι
  bounded : holders.length ≤ permits
  full : waiters ≠ [] → holders.length = permits

namespace Semaphore

variable {ι : Type u} {permits : Nat}

def idle : Semaphore ι permits := ⟨[], [], Nat.zero_le _, fun h => absurd rfl h⟩

def acquire (s : Semaphore ι permits) (i : ι) : Semaphore ι permits :=
  if h : s.holders.length < permits then
    ⟨s.holders ++ [i], s.waiters, by simpa using Nat.succ_le_of_lt h,
      fun hw => absurd (s.full hw) (Nat.ne_of_lt h)⟩
  else
    ⟨s.holders, s.waiters ++ [i], s.bounded,
      fun _ => Nat.le_antisymm s.bounded (Nat.le_of_not_lt h)⟩

def release [DecidableEq ι] (s : Semaphore ι permits) (i : ι) : Semaphore ι permits :=
  if h : i ∈ s.holders then
    match hw : s.waiters with
    | [] =>
      ⟨s.holders.erase i, [], Nat.le_trans List.length_erase_le s.bounded, fun h => absurd rfl h⟩
    | j :: rest =>
      have hlen : (s.holders.erase i ++ [j]).length = permits := by
        have hpos := List.length_pos_of_mem h
        have hfull := s.full (by simp [hw])
        rw [List.length_append, List.length_erase_of_mem h, hfull]
        exact Nat.sub_add_cancel (hfull ▸ hpos)
      ⟨s.holders.erase i ++ [j], rest, Nat.le_of_eq hlen, fun _ => hlen⟩
  else s

variable {s : Semaphore ι permits} {i j : ι}

theorem waiters_eq_nil_of_lt (h : s.holders.length < permits) : s.waiters = [] := by
  by_contra hw
  exact absurd (s.full hw) (Nat.ne_of_lt h)

theorem acquire_of_lt (h : s.holders.length < permits) :
    (s.acquire i).holders = s.holders ++ [i] ∧ (s.acquire i).waiters = s.waiters := by
  simp [acquire, h]

theorem acquire_of_full (h : s.holders.length = permits) :
    (s.acquire i).holders = s.holders ∧ (s.acquire i).waiters = s.waiters ++ [i] := by
  simp [acquire, h]

theorem acquire_cases (s : Semaphore ι permits) (i : ι) :
    (s.waiters = [] ∧ (s.acquire i).holders = s.holders ++ [i] ∧ (s.acquire i).waiters = []) ∨
      (s.holders.length = permits ∧ (s.acquire i).holders = s.holders ∧
        (s.acquire i).waiters = s.waiters ++ [i]) := by
  rcases Nat.lt_or_ge s.holders.length permits with h | h
  · have hnil := waiters_eq_nil_of_lt h
    have hacq := acquire_of_lt (i := i) h
    exact .inl ⟨hnil, hacq.1, hacq.2.trans hnil⟩
  · have hfull := Nat.le_antisymm s.bounded h
    exact .inr ⟨hfull, acquire_of_full hfull⟩

theorem release_cases [DecidableEq ι] (h : i ∈ s.holders) :
    (s.waiters = [] ∧ (s.release i).holders = s.holders.erase i ∧ (s.release i).waiters = []) ∨
      ∃ j rest, s.waiters = j :: rest ∧ (s.release i).holders = s.holders.erase i ++ [j] ∧
        (s.release i).waiters = rest := by
  unfold release
  rw [dif_pos h]
  split
  · next hw => exact .inl ⟨hw, rfl, rfl⟩
  · next j rest hw => exact .inr ⟨j, rest, hw, rfl, rfl⟩

theorem exists_holder (hpos : 0 < permits) (h : j ∈ s.waiters) : ∃ i, i ∈ s.holders := by
  have hlen := s.full (List.ne_nil_of_mem h)
  exact List.exists_mem_of_length_pos (by omega)

theorem mem_acquire : j ∈ (s.acquire i).holders ∨ j ∈ (s.acquire i).waiters ↔
    (j ∈ s.holders ∨ j ∈ s.waiters) ∨ j = i := by
  rcases s.acquire_cases i with ⟨hn, hh, hw⟩ | ⟨-, hh, hw⟩
  · simp [hn, hh, hw]
  · simp [hh, hw, or_assoc]

structure InOrder {permits : Nat} (s : Semaphore Nat permits) (n : Nat) : Prop where
  lt : ∀ i, i ∈ s.holders ∨ i ∈ s.waiters → i < n
  nodup : s.holders.Nodup
  disjoint : ∀ i, i ∈ s.holders → i ∉ s.waiters
  sorted : s.waiters.Pairwise (· < ·)
  before : ∀ i j, i < n → i ∉ s.waiters → j ∈ s.waiters → i < j

theorem InOrder.idle {permits : Nat} (n : Nat) : (Semaphore.idle : Semaphore Nat permits).InOrder n where
  lt _ h := by simp [Semaphore.idle] at h
  nodup := .nil
  disjoint _ h := nomatch h
  sorted := .nil
  before _ _ _ _ h := nomatch h

section InOrder

variable {permits n : Nat} {s : Semaphore Nat permits}

theorem InOrder.acquire (h : s.InOrder n) : (s.acquire n).InOrder (n + 1) := by
  have hlt : ∀ i, i ∈ (s.acquire n).holders ∨ i ∈ (s.acquire n).waiters → i < n + 1 := by
    intro i hi
    rcases mem_acquire.mp hi with hi | rfl
    · exact Nat.lt_succ_of_lt (h.lt i hi)
    · exact Nat.lt_succ_self i
  rcases s.acquire_cases n with ⟨hn, hh, hw⟩ | ⟨-, hh, hw⟩
  · constructor
    case lt => exact hlt
    case nodup =>
      rw [hh, List.nodup_append]
      refine ⟨h.nodup, List.nodup_singleton _, fun i hi j hj => ?_⟩
      have := h.lt i (.inl hi)
      have := List.mem_singleton.mp hj
      omega
    case disjoint => simp [hw]
    case sorted => rw [hw]; exact .nil
    case before => simp [hw]
  · constructor
    case lt => exact hlt
    case nodup => rw [hh]; exact h.nodup
    case disjoint =>
      intro i hi
      rw [hh] at hi
      have := h.lt i (.inl hi)
      simp only [hw, List.mem_append, List.mem_singleton, not_or]
      exact ⟨h.disjoint i hi, by omega⟩
    case sorted =>
      rw [hw, List.pairwise_append]
      refine ⟨h.sorted, List.pairwise_singleton _ _, fun i hi j hj => ?_⟩
      rw [List.mem_singleton.mp hj]
      exact h.lt i (.inr hi)
    case before =>
      intro i j hi hni hj
      simp only [hw, List.mem_append, List.mem_singleton, not_or] at hni hj
      have hi' : i < n := by omega
      rcases hj with hj | rfl
      · exact h.before i j hi' hni.1 hj
      · exact hi'

theorem InOrder.mem_release (h : s.InOrder n) {i j : Nat} (hi : i ∈ s.holders) :
    j ∈ (s.release i).holders ∨ j ∈ (s.release i).waiters ↔
      (j ∈ s.holders ∨ j ∈ s.waiters) ∧ j ≠ i := by
  have hne : ∀ j ∈ s.waiters, j ≠ i := fun j hj hji => h.disjoint i hi (hji ▸ hj)
  have herase : j ∈ s.holders.erase i ↔ j ∈ s.holders ∧ j ≠ i := by
    rw [h.nodup.mem_erase_iff, and_comm]
  rcases release_cases hi with ⟨hn, hh, hw⟩ | ⟨k, rest, hk, hh, hw⟩
  · simp [hn, hh, hw, herase]
  · simp only [hk, List.mem_cons] at hne
    simp only [hh, hw, hk, List.mem_append, List.mem_cons, herase]
    grind

theorem InOrder.release (h : s.InOrder n) {i : Nat} (hi : i ∈ s.holders) :
    (s.release i).InOrder n := by
  have hlt : ∀ j, j ∈ (s.release i).holders ∨ j ∈ (s.release i).waiters → j < n := fun j hj =>
    h.lt j ((h.mem_release hi).mp hj).1
  rcases release_cases hi with ⟨hn, hh, hw⟩ | ⟨k, rest, hk, hh, hw⟩
  · constructor
    case lt => exact hlt
    case nodup => rw [hh]; exact h.nodup.erase i
    case disjoint => simp [hw]
    case sorted => rw [hw]; exact .nil
    case before => simp [hw]
  · have hsorted := h.sorted
    rw [hk, List.pairwise_cons] at hsorted
    have hkw : k ∈ s.waiters := by simp [hk]
    have hkh : k ∉ s.holders := fun hmem => h.disjoint k hmem hkw
    constructor
    case lt => exact hlt
    case nodup =>
      rw [hh, List.nodup_append]
      refine ⟨h.nodup.erase i, List.nodup_singleton _, fun j hj l hl => ?_⟩
      rintro rfl
      rw [List.mem_singleton.mp hl] at hj
      exact hkh (List.mem_of_mem_erase hj)
    case disjoint =>
      intro j hj hjw
      rw [hh, List.mem_append, List.mem_singleton] at hj
      rw [hw] at hjw
      rcases hj with hj | rfl
      · exact h.disjoint j (List.mem_of_mem_erase hj) (by simp [hk, hjw])
      · exact absurd (hsorted.1 j hjw) (Nat.lt_irrefl j)
    case sorted => rw [hw]; exact hsorted.2
    case before =>
      intro j l hj hnj hl
      rw [hw] at hnj hl
      by_cases hjk : j = k
      · exact hjk ▸ hsorted.1 l hl
      · exact h.before j l hj (by simp [hk, hjk, hnj]) (by simp [hk, hl])

end InOrder

end Semaphore

end ProxySplit.Lib
