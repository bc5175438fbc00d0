import ProxySplit.Lib.Machine
import ProxySplit.Fetchers.Chunk

namespace ProxySplit

open Lib

/-- What a `fetch_chunk` ends with when nobody cancels it. -/
abbrev Fetched := Except PyExc ChunkResult

inductive Candidate
  | a | b
  deriving DecidableEq

def Candidate.other : Candidate → Candidate
  | .a => .b
  | .b => .a

/-- Where `_race_task` is: in `asyncio.wait`, in the `finally` awaiting the loser it cancelled,
past `ready[i].set()`, left through the `CancelledError` of the loser, or left because the stream
cancelled it. -/
inductive RacePc
  | waiting
  | reaping (winner : ChunkResult)
  | stored (result : Fetched)
  | raised
  | aborted
  deriving DecidableEq

structure Race where
  outcome : Candidate → Option Fetched
  pending : Candidate → Bool
  pc : RacePc

namespace Race

def init : Race := ⟨fun _ => none, fun _ => true, .waiting⟩

/-- The candidates `asyncio.wait` hands back as done. -/
def done (s : Race) (c : Candidate) : Bool := s.pending c && (s.outcome c).isSome

def success (s : Race) (c : Candidate) : Option ChunkResult :=
  match s.outcome c with
  | some (.ok res) => if s.done c then some res else none
  | _ => none

/-- The first success in the order the set `done` is iterated in. -/
def winner (s : Race) (first : Candidate) : Option ChunkResult :=
  (s.success first).or (s.success first.other)

/-- `t_a.exception() or RuntimeError(...)`. -/
def failure (s : Race) : PyExc :=
  match s.outcome .a with
  | some (.error exc) => exc
  | _ => .runtimeError "race: both proxies failed"

def rest (s : Race) (c : Candidate) : Bool := s.pending c && (s.outcome c).isNone

/-- One round of the loop, and the `finally` when it is the last. -/
def wake (s : Race) (first : Candidate) : Race :=
  match s.winner first with
  | some res =>
    { s with
      pending := s.rest
      pc := if s.rest .a || s.rest .b then .reaping res else .stored (.ok res) }
  | none =>
    { s with
      pending := s.rest
      pc := if s.rest .a || s.rest .b then .waiting else .stored (.error s.failure) }

inductive Label
  | finish (c : Candidate) (res : Fetched)
  | wake (first : Candidate)
  | reap
  | cancel

def step (s : Race) : Label → Option Race
  | .finish c res =>
    if s.pc = .waiting ∧ s.outcome c = none ∧ res ≠ .error .cancelled then
      some { s with outcome := Function.update s.outcome c (some res) }
    else none
  | .wake first =>
    if s.pc = .waiting ∧ (s.done .a || s.done .b) then some (s.wake first) else none
  | .reap =>
    match s.pc with
    | .reaping _ => some { s with pc := .raised }
    | _ => none
  | .cancel =>
    match s.pc with
    | .waiting | .reaping _ => some { s with pc := .aborted }
    | _ => none

def machine : Machine Race Label := ⟨init, step⟩

def Ended (s : Race) : Prop := (∃ result, s.pc = .stored result) ∨ s.pc = .raised

/-- `ready[0]` is set, and `results[0]` is the result of a candidate if one succeeded and an
exception otherwise. -/
def Resolved (s : Race) : Prop :=
  match s.pc with
  | .stored (.ok res) => ∃ c, s.outcome c = some (.ok res)
  | .stored (.error _) => ∀ c res, s.outcome c ≠ some (.ok res)
  | _ => False

/-- When a winner is seen no candidate is still running. -/
def NoLoserPending (s : Race) : Label → Prop
  | .wake first => (s.winner first).isSome → ∀ c, s.rest c = false
  | _ => True

theorem outcome_of_success {s : Race} {c : Candidate} {res : ChunkResult}
    (h : s.success c = some res) : s.outcome c = some (.ok res) := by
  unfold success at h
  split at h
  · next hc =>
    split at h
    · cases h; exact hc
    · cases h
  · cases h

theorem outcome_of_winner {s : Race} {first : Candidate} {res : ChunkResult}
    (h : s.winner first = some res) : ∃ c, s.outcome c = some (.ok res) := by
  rcases Option.or_eq_some_iff.mp h with h | ⟨-, h⟩
  · exact ⟨first, outcome_of_success h⟩
  · exact ⟨first.other, outcome_of_success h⟩

theorem success_of_winner_eq_none {s : Race} {first : Candidate} (h : s.winner first = none)
    (c : Candidate) : s.success c = none := by
  have hboth := Option.or_eq_none_iff.mp h
  cases first <;> cases c <;> first | exact hboth.1 | exact hboth.2

theorem rest_eq_false {s : Race} (h : (s.rest .a || s.rest .b) = false) (c : Candidate) :
    s.rest c = false := by
  rw [Bool.or_eq_false_iff] at h
  cases c
  · exact h.1
  · exact h.2

def RunInv (s : Race) : Prop :=
  match s.pc with
  | .waiting => ∀ c, s.pending c = false → ∃ exc, s.outcome c = some (.error exc)
  | .stored _ => s.Resolved
  | .aborted => True
  | .reaping _ | .raised => False

theorem failed_of_no_success {s : Race} (hI : s.RunInv) (hpc : s.pc = .waiting)
    {first : Candidate} (hwin : s.winner first = none) {c : Candidate} (hc : s.rest c = false) :
    ∃ exc, s.outcome c = some (.error exc) := by
  cases hp : s.pending c with
  | false =>
    simp only [RunInv, hpc] at hI
    exact hI c hp
  | true =>
    have hnone := success_of_winner_eq_none hwin c
    cases ho : s.outcome c with
    | none => simp [rest, hp, ho] at hc
    | some res =>
      cases res with
      | error exc => exact ⟨exc, rfl⟩
      | ok res => simp [success, done, hp, ho] at hnone

theorem RunInv.finish {s : Race} (hI : s.RunInv) (hpc : s.pc = .waiting) {c : Candidate}
    (hc : s.outcome c = none) (res : Fetched) :
    RunInv { s with outcome := Function.update s.outcome c (some res) } := by
  simp only [RunInv, hpc] at hI ⊢
  intro c' hc'
  obtain ⟨exc, hexc⟩ := hI c' hc'
  have hne : c' ≠ c := fun he => by simp [he, hc] at hexc
  exact ⟨exc, by rwa [Function.update_of_ne hne]⟩

theorem RunInv.wake {s : Race} (hI : s.RunInv) (hpc : s.pc = .waiting) {first : Candidate}
    (hok : s.NoLoserPending (.wake first)) : (s.wake first).RunInv := by
  unfold Race.wake
  cases hwin : s.winner first with
  | some res =>
    have hrest := hok (by simp [hwin])
    simp only [RunInv, Resolved, hrest, Bool.or_self, Bool.false_eq_true, if_false]
    exact outcome_of_winner hwin
  | none =>
    cases hrest : s.rest .a || s.rest .b with
    | true =>
      simp only [RunInv, if_true]
      exact fun c hc => failed_of_no_success hI hpc hwin hc
    | false =>
      simp only [RunInv, Resolved, Bool.false_eq_true, if_false]
      intro c res hres
      obtain ⟨exc, hexc⟩ := failed_of_no_success hI hpc hwin (rest_eq_false hrest c)
      rw [hexc] at hres
      cases hres

theorem runInv_of_reach {s : Race} (h : machine.Reach NoLoserPending s) : s.RunInv := by
  refine h.invariant nofun ?_
  intro s l s' hI hok hstep
  cases l with
  | finish c res =>
    simp only [machine, step] at hstep
    split at hstep
    · next hcond => cases hstep; exact hI.finish hcond.1 hcond.2.1 res
    · cases hstep
  | wake first =>
    simp only [machine, step] at hstep
    split at hstep
    · next hcond => cases hstep; exact hI.wake hcond.1 hok
    · cases hstep
  | reap =>
    simp only [machine, step] at hstep
    split at hstep
    · next hpc => simp [RunInv, hpc] at hI
    · cases hstep
  | cancel =>
    simp only [machine, step] at hstep
    split at hstep
    · cases hstep; trivial
    · cases hstep; trivial
    · cases hstep

theorem noLoserPending_of_wake {s : Race} {first : Candidate}
    (h : (s.wake first).pc = .waiting ∨ ∃ result, (s.wake first).pc = .stored result) :
    s.NoLoserPending (.wake first) := by
  intro hwin
  obtain ⟨res, hres⟩ := Option.isSome_iff_exists.mp hwin
  apply rest_eq_false
  cases hrest : s.rest .a || s.rest .b with
  | false => rfl
  | true => simp only [wake, hres, hrest, if_true] at h; simp at h

theorem reach_of_reachable {s : Race} (h : machine.Reachable s) :
    s.pc = .waiting ∨ (∃ result, s.pc = .stored result) → machine.Reach NoLoserPending s := by
  induction h with
  | init => exact fun _ => .init
  | @step s l s' hs _ hstep ih =>
    intro hpc
    cases l with
    | finish c res =>
      have hs' := hstep
      simp only [machine, step] at hs'
      split at hs'
      · next hcond =>
        exact .step (ih (.inl hcond.1)) (show NoLoserPending s (.finish c res) from trivial) hstep
      · cases hs'
    | wake first =>
      have hs' := hstep
      simp only [machine, step] at hs'
      split at hs'
      · next hcond =>
        cases hs'
        exact .step (ih (.inl hcond.1)) (noLoserPending_of_wake hpc) hstep
      · cases hs'
    | reap =>
      simp only [machine, step] at hstep
      split at hstep
      · cases hstep; simp at hpc
      · cases hstep
    | cancel =>
      simp only [machine, step] at hstep
      split at hstep
      · cases hstep; simp at hpc
      · cases hstep; simp at hpc
      · cases hstep

/-- A race that ends on its own has stored what it should exactly if its run never saw a winner
while the other candidate was still pending. -/
theorem resolved_iff (s : Race) (hs : machine.Reachable s) (hend : s.Ended) :
    s.Resolved ↔ machine.Reach NoLoserPending s := by
  constructor
  · intro hres
    apply reach_of_reachable hs
    rcases hend with hstored | hraised
    · exact .inr hstored
    · simp [Resolved, hraised] at hres
  · intro hreach
    have hI := runInv_of_reach hreach
    rcases hend with ⟨result, hstored⟩ | hraised
    · simpa only [RunInv, hstored] using hI
    · simp [RunInv, hraised] at hI

def chunkZero (proxy : Url) : ChunkResult := ⟨0, [0, 1], 206, proxy⟩

theorem reach_of_late_winner :
    ∃ s, machine.Reach NoLoserPending s ∧ s.pc = .stored (.ok (chunkZero "http://10.0.0.1:8080")) := by
  obtain ⟨s, hr, hpc, hout⟩ := Machine.exists_reachable (M := machine)
    (P := fun s => s.pc = .stored (.ok (chunkZero "http://10.0.0.1:8080")) ∧
      s.outcome .a = some (.ok (chunkZero "http://10.0.0.1:8080")))
    [.finish .b (.error .timeout), .wake .b, .finish .a (.ok (chunkZero "http://10.0.0.1:8080")),
      .wake .a] (by decide)
  have hres : s.Resolved := by
    simp only [Resolved, hpc]
    exact ⟨.a, hout⟩
  exact ⟨s, (resolved_iff s hr (.inl ⟨_, hpc⟩)).mp hres, hpc⟩

/-- The usual order of a race: one candidate brings the chunk while the other still runs. -/
theorem not_resolved_when_loser_pending :
    ¬ ∀ s, machine.Reachable s → s.Ended → s.Resolved := by
  intro hall
  obtain ⟨s, hr, hpc⟩ := Machine.exists_reachable (M := machine) (P := fun s => s.pc = .raised)
    [.finish .a (.ok (chunkZero "http://10.0.0.1:8080")), .wake .a, .reap] (by decide)
  have hres := hall s hr (.inr hpc)
  simp [Resolved, hpc] at hres

end Race

end ProxySplit
