import ProxySplit.Lib.Machine
import Mathlib.Data.Fintype.Basic
import Mathlib.Data.Finset.Dedup

universe u v w

namespace ProxySplit.Lib

/-- Where somebody is who started tasks and takes the first answer: it waits for the next tasks to end, or for
those that it has cancelled because it has its answer, or it has left, or it was cancelled itself. -/
inductive WaitPc (α : Type w)
  | waiting
  | reaping (a : α)
  | left (r : Option α)
  | interrupted
  deriving DecidableEq

/-- The tasks with what they ended with by themselves.  `told` were cancelled, and `dead` ended of that;
`pending` are those that are still waited for, and `seen` those whose results were looked at, in order. -/
structure FirstAnswer (ι : Type u) (β : ι → Type v) (α : Type w) where
  ended : (i : ι) → Option (β i)
  told : Finset ι
  dead : Finset ι
  pending : Finset ι
  seen : List ι
  pc : WaitPc α

namespace FirstAnswer

variable {ι : Type u} {β : ι → Type v} {α : Type w}

inductive Label (ι : Type u) (β : ι → Type v)
  | finish (i : ι) (b : β i)
  | die (i : ι)
  | wake (order : List ι)
  | reap
  | interrupt

def Running (s : FirstAnswer ι β α) (i : ι) : Prop := (s.ended i).isNone ∧ i ∉ s.dead

instance [DecidableEq ι] (s : FirstAnswer ι β α) (i : ι) : Decidable (s.Running i) :=
  inferInstanceAs (Decidable (_ ∧ _))

def rest (s : FirstAnswer ι β α) : Finset ι := s.pending.filter fun i => (s.ended i).isNone

variable (answer : (i : ι) → β i → Option α)

def answerOf (s : FirstAnswer ι β α) (i : ι) : Option α := (s.ended i).bind (answer i)

def looked (s : FirstAnswer ι β α) (order : List ι) : List ι :=
  order.take (order.findIdx (fun i => (s.answerOf answer i).isSome) + 1)

/-- One round: the results are looked at in the given order up to the first answer, and if there is one, the
tasks that have not ended are cancelled. -/
def wake [DecidableEq ι] (s : FirstAnswer ι β α) (order : List ι) : FirstAnswer ι β α :=
  match order.findSome? (s.answerOf answer) with
  | some a =>
    { s with
      pending := s.rest
      told := s.told ∪ s.rest
      seen := s.seen ++ s.looked answer order
      pc := if s.rest = ∅ then .left (some a) else .reaping a }
  | none =>
    { s with
      pending := s.rest
      seen := s.seen ++ s.looked answer order
      pc := if s.rest = ∅ then .left none else .waiting }

def step [DecidableEq ι] [Fintype ι] (s : FirstAnswer ι β α) : Label ι β → Option (FirstAnswer ι β α)
  | .finish i b => if s.Running i then some { s with ended := Function.update s.ended i (some b) } else none
  | .die i => if s.Running i ∧ i ∈ s.told then some { s with dead := insert i s.dead } else none
  | .wake order =>
    match s.pc with
    | .waiting =>
      if order ≠ [] ∧ order.Nodup ∧ ∀ i, i ∈ order ↔ i ∈ s.pending ∧ (s.ended i).isSome then
        some (s.wake answer order)
      else none
    | _ => none
  | .reap =>
    match s.pc with
    | .reaping a => if ∀ i, ¬ s.Running i then some { s with pc := .left (some a) } else none
    | _ => none
  | .interrupt =>
    match s.pc with
    | .waiting | .reaping _ => some { s with pc := .interrupted }
    | _ => none

def init [DecidableEq ι] [Fintype ι] : FirstAnswer ι β α :=
  ⟨fun _ => none, ∅, ∅, Finset.univ, [], if (Finset.univ : Finset ι) = ∅ then .left none else .waiting⟩

def machine [DecidableEq ι] [Fintype ι] : Machine (FirstAnswer ι β α) (Label ι β) := ⟨init, step answer⟩

structure Inv (s : FirstAnswer ι β α) : Prop where
  covered : ∀ i, (s.ended i).isSome ∨ i ∈ s.pending
  ended : ∀ i ∈ s.seen, (s.ended i).isSome
  unhurried : s.dead ⊆ s.told
  waiting : s.pc = .waiting → s.told = ∅ ∧ s.pending ≠ ∅ ∧ s.seen.findSome? (s.answerOf answer) = none ∧
    ∀ i, i ∈ s.seen ∨ i ∈ s.pending
  reaping : ∀ a, s.pc = .reaping a → s.seen.findSome? (s.answerOf answer) = some a ∧ s.pending ⊆ s.told
  left : ∀ r, s.pc = .left r → s.seen.findSome? (s.answerOf answer) = r ∧ (∀ i, ¬ s.Running i) ∧
    (r = none → ∀ i, i ∈ s.seen)
  interrupted : s.pc = .interrupted → s.told = ∅ ∨ ∀ i, s.Running i → i ∈ s.told

variable {answer} {s s' : FirstAnswer ι β α} {l : Label ι β}

theorem mem_rest {i : ι} : i ∈ s.rest ↔ i ∈ s.pending ∧ (s.ended i).isNone := Finset.mem_filter

theorem Running.not_isSome {i : ι} (h : s.Running i) : ¬ (s.ended i).isSome = true :=
  Option.not_isSome_iff_eq_none.mpr (Option.isNone_iff_eq_none.mp h.1)

theorem findSome?_looked (order : List ι) :
    (s.looked answer order).findSome? (s.answerOf answer) = order.findSome? (s.answerOf answer) := by
  induction order with
  | nil => rfl
  | cons i order ih =>
    rw [looked] at ih ⊢
    cases hi : s.answerOf answer i with
    | none => simpa [List.findIdx_cons, hi] using ih
    | some a => simp [List.findIdx_cons, hi]

theorem looked_of_findSome?_eq_none {order : List ι} (h : order.findSome? (s.answerOf answer) = none) :
    s.looked answer order = order := by
  refine List.take_of_length_le (Nat.le_succ_of_le ?_)
  rw [List.findIdx_eq_length.mpr fun i hi => ?_]
  simp [List.findSome?_eq_none_iff.mp h i hi]

theorem looked_subset (order : List ι) : s.looked answer order ⊆ order := List.take_subset _ _

theorem inv_of_left {r : Option α} (hpc : s.pc = .left r) (hended : ∀ i ∈ s.seen, (s.ended i).isSome)
    (hdead : s.dead ⊆ s.told) (hcovered : ∀ i, (s.ended i).isSome ∨ i ∈ s.pending)
    (hfound : s.seen.findSome? (s.answerOf answer) = r) (hstill : ∀ i, ¬ s.Running i)
    (hall : r = none → ∀ i, i ∈ s.seen) : Inv answer s where
  covered := hcovered
  ended := hended
  unhurried := hdead
  waiting := fun hpc' => (by cases hpc.symm.trans hpc')
  reaping := fun a hpc' => (by cases hpc.symm.trans hpc')
  left := fun r' hpc' => by
    cases hpc.symm.trans hpc'
    exact ⟨hfound, hstill, hall⟩
  interrupted := fun hpc' => (by cases hpc.symm.trans hpc')

theorem Inv.reap (h : Inv answer s) {a : α} (hpc : s.pc = .reaping a) (hstill : ∀ i, ¬ s.Running i) :
    Inv answer { s with pc := .left (some a) } :=
  inv_of_left rfl h.ended h.unhurried h.covered (h.reaping a hpc).1 hstill fun hr => (by cases hr)

theorem Inv.interrupt (h : Inv answer s) (hpc : s.pc = .waiting ∨ ∃ a, s.pc = .reaping a) :
    Inv answer { s with pc := .interrupted } where
  covered := h.covered
  ended := h.ended
  unhurried := h.unhurried
  waiting := fun hpc' => (by cases hpc')
  reaping := fun b hpc' => (by cases hpc')
  left := fun r hpc' => (by cases hpc')
  interrupted := fun _ => by
    rcases hpc with hpc | ⟨a, hpc⟩
    · exact .inl (h.waiting hpc).1
    · exact .inr fun i hi => (h.reaping a hpc).2 ((h.covered i).resolve_left hi.not_isSome)

theorem findSome?_congr_mem {f g : ι → Option α} {is : List ι} (h : ∀ i ∈ is, f i = g i) :
    is.findSome? f = is.findSome? g := by
  induction is with
  | nil => rfl
  | cons i is ih =>
    rw [List.findSome?_cons, List.findSome?_cons, h i (.head _), ih fun j hj => h j (.tail _ hj)]

variable [DecidableEq ι]

theorem Inv.findSome?_finish (h : Inv answer s) {i : ι} (hi : s.Running i) (b : β i) :
    s.seen.findSome? (answerOf answer { s with ended := Function.update s.ended i (some b) }) =
      s.seen.findSome? (s.answerOf answer) := by
  refine findSome?_congr_mem fun j hj => ?_
  have hne : j ≠ i := by
    rintro rfl
    have hsome := h.ended j hj
    rw [Option.isNone_iff_eq_none.mp hi.1] at hsome
    cases hsome
  simp [answerOf, Function.update_of_ne hne]

theorem Inv.finish (h : Inv answer s) {i : ι} (hi : s.Running i) (b : β i) :
    Inv answer { s with ended := Function.update s.ended i (some b) } := by
  have hfound := h.findSome?_finish hi b
  have hmore : ∀ j, (s.ended j).isSome → (Function.update s.ended i (some b) j).isSome := by
    intro j hj
    by_cases hij : j = i
    · subst hij
      simp
    · rwa [Function.update_of_ne hij]
  refine { h with
    covered := ?covered, ended := ?ended, waiting := ?waiting, reaping := ?reaping, left := ?left,
    interrupted := ?interrupted }
  case covered => exact fun j => (h.covered j).imp_left (hmore j)
  case ended => exact fun j hj => hmore j (h.ended j hj)
  case waiting =>
    intro hpc
    obtain ⟨htold, hpending, hnone, hall⟩ := h.waiting hpc
    exact ⟨htold, hpending, hfound.trans hnone, hall⟩
  case reaping => exact fun a hpc => ⟨hfound.trans (h.reaping a hpc).1, (h.reaping a hpc).2⟩
  case left => exact fun r hpc => absurd hi ((h.left r hpc).2.1 i)
  case interrupted =>
    refine fun hpc => (h.interrupted hpc).imp_right fun hall j hj => hall j ⟨?_, hj.2⟩
    cases hsome : s.ended j with
    | none => rfl
    | some c => exact absurd (hmore j (by rw [hsome]; rfl)) hj.not_isSome

theorem Inv.die (h : Inv answer s) {i : ι} (hi : s.Running i) (htold : i ∈ s.told) :
    Inv answer { s with dead := insert i s.dead } :=
  { h with
    unhurried := Finset.insert_subset htold h.unhurried
    left := fun r hpc => absurd hi ((h.left r hpc).2.1 i)
    interrupted := fun hpc => (h.interrupted hpc).imp_right fun hall j hj =>
      hall j ⟨hj.1, fun hdead => hj.2 (Finset.mem_insert_of_mem hdead)⟩ }

theorem Inv.wake (h : Inv answer s) (hpc : s.pc = .waiting) {order : List ι}
    (horder : ∀ i, i ∈ order ↔ i ∈ s.pending ∧ (s.ended i).isSome) : Inv answer (s.wake answer order) := by
  obtain ⟨htold, -, hnone, hall⟩ := h.waiting hpc
  have hcovered : ∀ i, (s.ended i).isSome ∨ i ∈ s.rest := by
    intro i
    rcases h.covered i with hended | hpending
    · exact .inl hended
    · cases hended : (s.ended i).isSome with
      | true => exact .inl rfl
      | false => exact .inr (mem_rest.mpr ⟨hpending, by simpa using hended⟩)
  have hended : ∀ i ∈ s.seen ++ s.looked answer order, (s.ended i).isSome := by
    intro i hi
    rcases List.mem_append.mp hi with hseen | hnew
    · exact h.ended i hseen
    · exact ((horder i).mp (looked_subset order hnew)).2
  have hstill : s.rest = ∅ → ∀ i, ¬ s.Running i := by
    intro hrest i hrun
    have hmem := (hcovered i).resolve_left hrun.not_isSome
    rw [hrest] at hmem
    exact Finset.notMem_empty i hmem
  have hfound : ∀ r, order.findSome? (s.answerOf answer) = r →
      (s.seen ++ s.looked answer order).findSome? (s.answerOf answer) = r := by
    intro r hr
    rw [List.findSome?_append, hnone, Option.none_or, findSome?_looked, hr]
  have hdead := h.unhurried
  unfold FirstAnswer.wake
  split
  · next a ha =>
    by_cases hrest : s.rest = ∅
    · rw [if_pos hrest]
      exact inv_of_left rfl hended (hdead.trans Finset.subset_union_left) hcovered (hfound _ ha)
        (hstill hrest) fun hr => (by cases hr)
    · rw [if_neg hrest]
      refine ⟨hcovered, hended, hdead.trans Finset.subset_union_left, ?_, ?_, ?_, ?_⟩
      · exact fun hpc' => (by cases hpc')
      · intro b hpc'
        cases hpc'
        exact ⟨hfound _ ha, Finset.subset_union_right⟩
      · exact fun r hpc' => (by cases hpc')
      · exact fun hpc' => (by cases hpc')
  · next hnew =>
    -- Without an answer every task that has ended is looked at.
    have hseen : ∀ i, i ∈ s.seen ++ s.looked answer order ∨ i ∈ s.rest := by
      intro i
      rw [looked_of_findSome?_eq_none hnew]
      rcases hall i with hi | hpending
      · exact .inl (List.mem_append_left _ hi)
      · exact (hcovered i).imp_left fun hi => List.mem_append_right _ ((horder i).mpr ⟨hpending, hi⟩)
    by_cases hrest : s.rest = ∅
    · rw [if_pos hrest]
      refine inv_of_left rfl hended hdead hcovered (hfound _ hnew) (hstill hrest) fun _ i => ?_
      refine (hseen i).resolve_right ?_
      rw [hrest]
      exact Finset.notMem_empty i
    · rw [if_neg hrest]
      refine ⟨hcovered, hended, hdead, fun _ => ⟨htold, hrest, hfound _ hnew, hseen⟩, ?_, ?_, ?_⟩
      · exact fun b hpc' => (by cases hpc')
      · exact fun r hpc' => (by cases hpc')
      · exact fun hpc' => (by cases hpc')

variable [Fintype ι]

theorem inv_init : Inv answer (init : FirstAnswer ι β α) := by
  by_cases hempty : (Finset.univ : Finset ι) = ∅
  · have hnobody : ∀ i : ι, False := fun i => Finset.notMem_empty i (hempty ▸ Finset.mem_univ i)
    exact inv_of_left (if_pos hempty) (fun i => (hnobody i).elim) (Finset.Subset.refl _)
      (fun i => (hnobody i).elim) rfl (fun i => (hnobody i).elim) fun _ i => (hnobody i).elim
  · have hpc : (init : FirstAnswer ι β α).pc = .waiting := if_neg hempty
    refine ⟨fun i => .inr (Finset.mem_univ i), fun i hi => (by cases hi), Finset.Subset.refl _,
      fun _ => ⟨rfl, hempty, rfl, fun i => .inr (Finset.mem_univ i)⟩, ?_, ?_, fun _ => .inl rfl⟩
    · exact fun a hpc' => (by cases hpc.symm.trans hpc')
    · exact fun r hpc' => (by cases hpc.symm.trans hpc')

theorem Inv.step (h : Inv answer s) (hstep : s.step answer l = some s') : Inv answer s' := by
  cases l with
  | finish i b =>
    obtain ⟨hi, hs⟩ := Option.ite_none_right_eq_some.mp hstep
    cases hs
    exact h.finish hi b
  | die i =>
    obtain ⟨⟨hi, htold⟩, hs⟩ := Option.ite_none_right_eq_some.mp hstep
    cases hs
    exact h.die hi htold
  | wake order =>
    simp only [FirstAnswer.step] at hstep
    split at hstep
    · next hpc =>
      obtain ⟨⟨-, -, horder⟩, hs⟩ := Option.ite_none_right_eq_some.mp hstep
      cases hs
      exact h.wake hpc horder
    · cases hstep
  | reap =>
    simp only [FirstAnswer.step] at hstep
    split at hstep
    · next a hpc =>
      obtain ⟨hstill, hs⟩ := Option.ite_none_right_eq_some.mp hstep
      cases hs
      exact h.reap hpc hstill
    · cases hstep
  | interrupt =>
    simp only [FirstAnswer.step] at hstep
    split at hstep
    · next hpc =>
      cases hstep
      exact h.interrupt (.inl hpc)
    · next a hpc =>
      cases hstep
      exact h.interrupt (.inr ⟨a, hpc⟩)
    · cases hstep

theorem exists_run_finish (answer : (i : ι) → β i → Option α) (b : (i : ι) → β i) {is : List ι}
    (hnodup : is.Nodup) (hrun : ∀ i ∈ is, s.Running i) :
    ∃ s', (machine answer).run s (is.map fun i => .finish i (b i)) = some s' ∧ s'.pc = s.pc ∧
      ∀ i, s'.Running i ↔ s.Running i ∧ i ∉ is := by
  induction is generalizing s with
  | nil => exact ⟨s, rfl, rfl, by simp⟩
  | cons i is ih =>
    have hi := hrun i (.head _)
    obtain ⟨hnot, hnodup⟩ := List.nodup_cons.mp hnodup
    have hrunning : ∀ j, Running { s with ended := Function.update s.ended i (some (b i)) } j ↔
        s.Running j ∧ j ≠ i := by
      intro j
      by_cases hij : j = i
      · subst hij
        simp [Running]
      · simp [Running, hij]
    obtain ⟨s', hs', hpc, hleft⟩ := ih (s := { s with ended := Function.update s.ended i (some (b i)) })
      hnodup fun j hj => (hrunning j).mpr ⟨hrun j (.tail _ hj), fun hji => hnot (hji ▸ hj)⟩
    refine ⟨s', ?_, hpc, fun j => ?_⟩
    · exact Option.bind_eq_some_iff.mpr ⟨_, if_pos hi, hs'⟩
    · rw [hleft, hrunning, List.mem_cons, not_or, and_assoc]

theorem Inv.exists_left_of_still (h : Inv answer s) (hstill : ∀ i, ¬ s.Running i)
    (hpc : s.pc ≠ .interrupted) : ∃ ls s' r, (∀ l ∈ ls, l ≠ .interrupt) ∧
      (machine answer).run s ls = some s' ∧ s'.pc = .left r := by
  cases hs : s.pc with
  | interrupted => exact absurd hs hpc
  | left r => exact ⟨[], s, r, by simp, rfl, hs⟩
  | reaping a =>
    refine ⟨[.reap], { s with pc := .left (some a) }, some a, by simp, ?_, rfl⟩
    have hstep : s.step answer .reap = some { s with pc := .left (some a) } := by
      simp only [FirstAnswer.step, hs, if_pos hstill]
    exact Option.bind_eq_some_iff.mpr ⟨_, hstep, rfl⟩
  | waiting =>
    -- Nobody is dead, as nobody was told to stop.
    have hdead : ∀ i, i ∉ s.dead := fun i hi => by
      have htold := h.unhurried hi
      rw [(h.waiting hs).1] at htold
      exact Finset.notMem_empty i htold
    have hended : ∀ i, (s.ended i).isSome := fun i =>
      Option.isSome_iff_ne_none.mpr fun hnone => hstill i ⟨Option.isNone_iff_eq_none.mpr hnone, hdead i⟩
    have hrest : s.rest = ∅ := Finset.filter_false_of_mem fun i _ hnone =>
      Option.not_isSome_iff_eq_none.mpr (Option.isNone_iff_eq_none.mp hnone) (hended i)
    have hpending : s.pending.toList ≠ [] := fun hnil =>
      (h.waiting hs).2.1 (Finset.toList_eq_nil.mp hnil)
    refine ⟨[.wake s.pending.toList], s.wake answer s.pending.toList,
      s.pending.toList.findSome? (s.answerOf answer), by simp, ?_, ?_⟩
    · have horder : ∀ i, i ∈ s.pending.toList ↔ i ∈ s.pending ∧ (s.ended i).isSome := fun i => by
        rw [Finset.mem_toList, hended i]
        exact (and_iff_left rfl).symm
      have hstep : s.step answer (.wake s.pending.toList) = some (s.wake answer s.pending.toList) := by
        simp only [FirstAnswer.step, hs]
        exact if_pos ⟨hpending, s.pending.nodup_toList, horder⟩
      exact Option.bind_eq_some_iff.mpr ⟨_, hstep, rfl⟩
    · unfold FirstAnswer.wake
      split
      · next a ha => simp [hrest, ha]
      · next ha => simp [hrest, ha]

theorem Inv.exists_left (h : Inv answer s) (hpc : s.pc ≠ .interrupted) (b : (i : ι) → β i) :
    ∃ ls s' r, (∀ l ∈ ls, l ≠ .interrupt) ∧ (machine answer).run s ls = some s' ∧ s'.pc = .left r := by
  obtain ⟨t, ht, hpct, hleft⟩ := exists_run_finish answer (s := s) b
    (Finset.univ.filter fun i => s.Running i).nodup_toList (by simp)
  have hI : Inv answer t := Machine.run_invariant (fun _ _ _ hI hstep => hI.step hstep) h ht
  obtain ⟨ls, s', r, hls, hrun, hs'⟩ := hI.exists_left_of_still (fun i => by simp [hleft]) (hpct ▸ hpc)
  refine ⟨_ ++ ls, s', r, ?_, Machine.run_append ht hrun, hs'⟩
  intro l hl
  rcases List.mem_append.mp hl with hfinish | hl
  · obtain ⟨i, -, rfl⟩ := List.mem_map.mp hfinish
    exact fun heq => (by cases heq)
  · exact hls l hl

theorem inv_of_reachable (hs : (machine answer).Reachable s) : Inv answer s :=
  hs.invariant inv_init fun _ _ _ hI _ hstep => hI.step hstep

end FirstAnswer

end ProxySplit.Lib
