import ProxySplit.Lib.Machine
import Mathlib.Data.List.ReduceOption
import Mathlib.Data.List.Nodup

namespace ProxySplit.Lib

/-- One state of a cell that others write, with the stamp that tells it from the states before. -/
structure Version (τ ν : Type*) where
  stamp : τ
  value : ν
  deriving DecidableEq

/-- A reader of such a cell.  It looks at the stamp, and when that has changed, it is due to fetch the value.
`written` has the versions that came after the reader's start, `fetched` what its fetches found. -/
structure Poller (τ ν : Type*) where
  cell : Option (Version τ ν)
  last : Option τ
  due : Bool
  written : List (Version τ ν)
  fetched : List (Option (Version τ ν))

namespace Poller

variable {τ ν : Type*} [DecidableEq τ]

inductive Event (τ ν : Type*)
  | write (v : Version τ ν)
  | remove
  | look
  | fetch

def step (s : Poller τ ν) : Event τ ν → Option (Poller τ ν)
  | .write v => some { s with cell := some v, written := s.written ++ [v] }
  | .remove => some { s with cell := none }
  | .look =>
    if s.due then none
    else
      match s.cell with
      | none => some s
      | some v => if s.last = some v.stamp then some s else some { s with last := some v.stamp, due := true }
  | .fetch => if s.due then some { s with due := false, fetched := s.fetched ++ [s.cell] } else none

def start (first : Option (Version τ ν)) : Poller τ ν := ⟨first, first.map Version.stamp, false, [], []⟩

def machine (first : Option (Version τ ν)) : Machine (Poller τ ν) (Event τ ν) := ⟨start first, step⟩

def history (first : Option (Version τ ν)) (s : Poller τ ν) : List (Version τ ν) := first.toList ++ s.written

/-- Every version has a stamp of its own. -/
def Fresh (first : Option (Version τ ν)) (s : Poller τ ν) : Event τ ν → Prop
  | .write v => v.stamp ∉ (s.history first).map Version.stamp
  | _ => True

instance (first : Option (Version τ ν)) (s : Poller τ ν) (e : Event τ ν) : Decidable (s.Fresh first e) :=
  match e with
  | .write _ => inferInstanceAs (Decidable (_ ∉ _))
  | .remove | .look | .fetch => inferInstanceAs (Decidable True)

def twice {α : Type*} (l : List α) : List α := l.flatMap (List.replicate 2)

theorem twice_concat {α : Type*} (l : List α) (a : α) : twice (l ++ [a]) = twice l ++ List.replicate 2 a := by
  simp [twice]

def room (s : Poller τ ν) (v : Version τ ν) : Nat :=
  (if s.due then 0 else 1) + if s.last = some v.stamp then 1 else 0

theorem room_le (s : Poller τ ν) (v : Version τ ν) : s.room v ≤ 2 := by
  unfold room
  split <;> split <;> decide

/-- The reader has last seen the stamp of the newest of `seen`, and has not been due more often than there are
versions in it. -/
structure Place (first : Option (Version τ ν)) (s : Poller τ ν) (seen unseen : List (Version τ ν)) :
    Prop where
  written : s.written = seen ++ unseen
  last : s.last = ((first.toList ++ seen).getLast?).map Version.stamp
  count : s.fetched.length + s.due.toNat ≤ seen.length

structure Inv (first : Option (Version τ ν)) (s : Poller τ ν) : Prop where
  distinct : ((s.history first).map Version.stamp).Nodup
  newest : ∀ v ∈ s.cell, (s.history first).getLast? = some v
  place : ∃ seen unseen, Place first s seen unseen
  bounded : ∀ old v, s.written = old ++ [v] →
    s.fetched.reduceOption.Sublist (twice old ++ List.replicate (s.room v) v)
  settled : s.due = false → ∀ v ∈ s.cell, s.last = some v.stamp →
    s.written = [] ∨ s.fetched.getLast? = some (some v)

variable {first : Option (Version τ ν)} {s s' : Poller τ ν} {e : Event τ ν} {v : Version τ ν}

theorem inv_start : Inv first (start first) where
  distinct := by cases first <;> simp [start, history]
  newest := by
    rintro v hv
    have hfirst : first = some v := hv
    simp [start, history, hfirst]
  place := ⟨[], [], rfl, by cases first <;> rfl, Nat.le_refl 0⟩
  bounded := fun old v h => absurd h (by simp [start])
  settled := fun _ _ _ _ => .inl rfl

omit [DecidableEq τ] in
theorem Place.mem_of_last {seen unseen : List (Version τ ν)} (h : Place first s seen unseen) {t : τ}
    (ht : s.last = some t) : t ∈ (s.history first).map Version.stamp := by
  obtain ⟨v, hv, rfl⟩ := Option.map_eq_some_iff.mp (h.last.symm.trans ht)
  refine List.mem_map_of_mem ?_
  rw [history, h.written, ← List.append_assoc]
  exact List.mem_append_left _ (List.mem_of_getLast? hv)

theorem Inv.sublist (h : Inv first s) : s.fetched.reduceOption.Sublist (twice s.written) := by
  rcases List.eq_nil_or_concat s.written with hnil | ⟨old, v, hold⟩
  · obtain ⟨seen, unseen, hplace⟩ := h.place
    have hseen : seen = [] := (List.append_eq_nil_iff.mp (hplace.written.symm.trans hnil)).1
    have hcount := hplace.count
    rw [hseen] at hcount
    have hlength : s.fetched.length = 0 := Nat.le_zero.mp (Nat.le_of_add_right_le hcount)
    rw [List.eq_nil_of_length_eq_zero hlength]
    exact List.nil_sublist _
  · rw [List.concat_eq_append] at hold
    rw [hold, twice_concat]
    exact (h.bounded old v hold).trans
      ((List.Sublist.refl _).append (List.replicate_sublist_replicate v |>.mpr (s.room_le v)))

theorem Inv.length_le (h : Inv first s) : s.fetched.length ≤ s.written.length := by
  obtain ⟨seen, unseen, hplace⟩ := h.place
  rw [hplace.written, List.length_append]
  exact Nat.le_trans (Nat.le_of_add_right_le hplace.count) (Nat.le_add_right _ _)

theorem Inv.write (h : Inv first s) (hfresh : v.stamp ∉ (s.history first).map Version.stamp) :
    Inv first { s with cell := some v, written := s.written ++ [v] } := by
  obtain ⟨seen, unseen, hplace⟩ := h.place
  have hhistory : history first { s with cell := some v, written := s.written ++ [v] } =
      s.history first ++ [v] := (List.append_assoc ..).symm
  constructor
  case distinct =>
    rw [hhistory, List.map_append]
    refine List.nodup_append'.mpr ⟨h.distinct, List.nodup_singleton _, ?_⟩
    exact List.disjoint_singleton.mpr hfresh
  case newest =>
    rintro w hw
    cases hw
    rw [hhistory]
    exact List.getLast?_concat
  case place => exact ⟨seen, unseen ++ [v], by simp [hplace.written], hplace.last, hplace.count⟩
  case bounded =>
    intro old w hold
    obtain ⟨rfl, -⟩ := List.append_inj' hold rfl
    exact h.sublist.trans (List.sublist_append_left _ _)
  case settled =>
    rintro - w hw hlast
    cases hw
    exact absurd (hplace.mem_of_last hlast) hfresh

theorem Inv.remove (h : Inv first s) : Inv first { s with cell := none } := by
  obtain ⟨seen, unseen, hplace⟩ := h.place
  exact { h with
    newest := fun _ hv => (by cases hv)
    place := ⟨seen, unseen, hplace.written, hplace.last, hplace.count⟩
    settled := fun _ _ hv => (by cases hv) }

theorem Inv.look (h : Inv first s) (hdue : s.due = false) (hcell : s.cell = some v)
    (hlast : s.last ≠ some v.stamp) : Inv first { s with last := some v.stamp, due := true } := by
  obtain ⟨seen, unseen, hplace⟩ := h.place
  have hnewest := h.newest v hcell
  rw [history, hplace.written, ← List.append_assoc] at hnewest
  have hunseen : unseen ≠ [] := by
    rintro rfl
    rw [List.append_nil] at hnewest
    exact hlast (hplace.last.trans (by rw [hnewest]; rfl))
  constructor
  case distinct => exact h.distinct
  case newest => exact h.newest
  case place =>
    refine ⟨s.written, [], (List.append_nil _).symm, ?_, ?_⟩
    · rw [hplace.written, ← List.append_assoc, hnewest]
      rfl
    · have hcount := hplace.count
      rw [hdue] at hcount
      rw [hplace.written, List.length_append]
      exact Nat.add_le_add hcount (List.length_pos_iff.mpr hunseen)
  case bounded =>
    intro old w hold
    refine (h.bounded old w hold).trans ((List.Sublist.refl _).append ?_)
    have hw : w = v := by
      have hlast := h.newest v hcell
      rw [history, show s.written = old ++ [w] from hold, ← List.append_assoc, List.getLast?_concat] at hlast
      exact Option.some.inj hlast
    refine (List.replicate_sublist_replicate w).mpr ?_
    simp [room, hdue, hw, hlast]
  case settled => exact fun hfalse => (by cases hfalse)

theorem Inv.fetch (h : Inv first s) (hdue : s.due = true) :
    Inv first { s with due := false, fetched := s.fetched ++ [s.cell] } := by
  obtain ⟨seen, unseen, hplace⟩ := h.place
  have hcount := hplace.count
  rw [hdue] at hcount
  constructor
  case distinct => exact h.distinct
  case newest => exact h.newest
  case place =>
    refine ⟨seen, unseen, hplace.written, hplace.last, ?_⟩
    rw [List.length_append]
    exact hcount
  case bounded =>
    intro old w hold
    have hbefore := h.bounded old w hold
    have hroom : room { s with due := false, fetched := s.fetched ++ [s.cell] } w = s.room w + 1 := by
      simp only [room, hdue, Bool.false_eq_true, if_false, if_true]
      exact Nat.add_right_comm 0 1 _ |>.trans (by rfl)
    rw [hroom, List.replicate_succ', ← List.append_assoc]
    dsimp only
    rw [List.reduceOption_append]
    refine hbefore.append ?_
    cases hcell : s.cell with
    | none => exact List.nil_sublist _
    | some v =>
      have hnewest := h.newest v hcell
      rw [history, show s.written = old ++ [w] from hold, ← List.append_assoc,
        List.getLast?_concat] at hnewest
      cases hnewest
      exact List.Sublist.refl _
  case settled =>
    intro _ v hv _
    right
    have hcell : s.cell = some v := hv
    dsimp only
    rw [hcell, List.getLast?_concat]

theorem Inv.step (h : Inv first s) (hfresh : s.Fresh first e) (hstep : s.step e = some s') :
    Inv first s' := by
  cases e with
  | write v =>
    cases hstep
    exact h.write hfresh
  | remove =>
    cases hstep
    exact h.remove
  | look =>
    obtain ⟨hdue, hlook⟩ := Option.ite_none_left_eq_some.mp hstep
    split at hlook
    · cases hlook
      exact h
    · next v hcell =>
      split at hlook
      · cases hlook
        exact h
      · next hlast =>
        cases hlook
        exact h.look (Bool.eq_false_iff.mpr hdue) hcell hlast
  | fetch =>
    obtain ⟨hdue, hs⟩ := Option.ite_none_right_eq_some.mp hstep
    cases hs
    exact h.fetch hdue

theorem fetched_of_step (h : s.step e = some s') :
    e = .fetch ∧ s'.fetched = s.fetched ++ [s.cell] ∨ e ≠ .fetch ∧ s'.fetched = s.fetched := by
  cases e with
  | fetch =>
    obtain ⟨-, hs⟩ := Option.ite_none_right_eq_some.mp h
    cases hs
    exact .inl ⟨rfl, rfl⟩
  | write v =>
    cases h
    exact .inr ⟨fun heq => (by cases heq), rfl⟩
  | remove =>
    cases h
    exact .inr ⟨fun heq => (by cases heq), rfl⟩
  | look =>
    refine .inr ⟨fun heq => (by cases heq), ?_⟩
    obtain ⟨-, hlook⟩ := Option.ite_none_left_eq_some.mp h
    split at hlook
    · cases hlook
      rfl
    · split at hlook
      · cases hlook
        rfl
      · cases hlook
        rfl

/-- The reader has seen the stamp of what is in the cell, and is not due. -/
def Settled (s : Poller τ ν) (v : Version τ ν) : Prop :=
  s.cell = some v ∧ s.due = false ∧ s.last = some v.stamp

instance [DecidableEq ν] (s : Poller τ ν) (v : Version τ ν) : Decidable (s.Settled v) :=
  inferInstanceAs (Decidable (_ ∧ _))

theorem inv_of_reach (hs : (machine first).Reach (Fresh first) s) : Inv first s :=
  hs.invariant inv_start fun _ _ _ hI hfresh hstep => hI.step hfresh hstep

end Poller

end ProxySplit.Lib
