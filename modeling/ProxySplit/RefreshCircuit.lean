import ProxySplit.Lib.Machine
import Mathlib.Data.Rat.Defs
import Mathlib.Algebra.Order.Field.Rat
import Mathlib.Tactic.Linarith

namespace ProxySplit

open Lib

/-- Where a call of `refresh_circuit` waits.  From `answered` on, Tor has decided on the command, and
`accepted` is when it accepted it.  An `abandoned` call has ended with its command on the way. -/
inductive RefreshPhase
  | sleeping (ready : ℚ)
  | connecting
  | authenticating
  | signalling
  | answered (accepted : Option ℚ)
  | closing (accepted : Option ℚ)
  | done
  | abandoned
  deriving DecidableEq

/-- What happens to a call.  `fail` is an error, a timeout or a cancellation. -/
inductive RefreshEvent
  | wake
  | connected
  | authenticated (ok : Bool)
  | accept
  | refuse
  | reply
  | closed
  | fail
  deriving DecidableEq

/-- A call with what it read of `_last_newnym`. -/
structure RefreshCall where
  seen : ℚ
  phase : RefreshPhase
  deriving DecidableEq

namespace RefreshPhase

def next (now : ℚ) : RefreshPhase → RefreshEvent → Option RefreshPhase
  | .sleeping ready, .wake => if ready ≤ now then some .connecting else none
  | .connecting, .connected => some .authenticating
  | .authenticating, .authenticated ok => some (if ok then .signalling else .done)
  | .signalling, .accept => some (.answered (some now))
  | .signalling, .refuse => some (.answered none)
  | .abandoned, .accept => some .done
  | .answered accepted, .reply => some (.closing accepted)
  | .closing _, .closed => some .done
  | .done, .fail | .abandoned, .fail => none
  | .signalling, .fail => some .abandoned
  | _, .fail => some .done
  | _, _ => none

def past : RefreshPhase → Bool
  | .sleeping _ | .done => false
  | _ => true

def unanswered : RefreshPhase → Bool
  | .signalling | .answered (some _) | .closing (some _) => false
  | _ => true

def records : RefreshPhase → RefreshEvent → Bool
  | .closing (some _), .closed => true
  | _, _ => false

/-- What an event can do, case by case. -/
inductive Next (now : ℚ) : RefreshPhase → RefreshEvent → RefreshPhase → Prop
  | wake {ready} : ready ≤ now → Next now (.sleeping ready) .wake .connecting
  | connected : Next now .connecting .connected .authenticating
  | authenticated : Next now .authenticating (.authenticated true) .signalling
  | rejected : Next now .authenticating (.authenticated false) .done
  | accept : Next now .signalling .accept (.answered (some now))
  | refuse : Next now .signalling .refuse (.answered none)
  | late : Next now .abandoned .accept .done
  | reply {accepted} : Next now (.answered accepted) .reply (.closing accepted)
  | closed {accepted} : Next now (.closing accepted) .closed .done
  | abandon : Next now .signalling .fail .abandoned
  | fail {phase : RefreshPhase} : phase ≠ .signalling → phase ≠ .done → phase ≠ .abandoned →
    Next now phase .fail .done

theorem Next.of_next {now : ℚ} {phase phase' : RefreshPhase} {e : RefreshEvent}
    (h : phase.next now e = some phase') : Next now phase e phase' := by
  cases e with
  | wake =>
    cases phase with
    | sleeping ready =>
      rw [RefreshPhase.next] at h
      split at h
      · next hready =>
        cases h
        exact .wake hready
      · cases h
    | _ => cases h
  | connected =>
    cases phase with
    | connecting =>
      cases h
      exact .connected
    | _ => cases h
  | authenticated ok =>
    cases phase with
    | authenticating =>
      cases ok with
      | true =>
        cases h
        exact .authenticated
      | false =>
        cases h
        exact .rejected
    | _ => cases h
  | accept =>
    cases phase with
    | signalling =>
      cases h
      exact .accept
    | abandoned =>
      cases h
      exact .late
    | _ => cases h
  | refuse =>
    cases phase with
    | signalling =>
      cases h
      exact .refuse
    | _ => cases h
  | reply =>
    cases phase with
    | answered =>
      cases h
      exact .reply
    | _ => cases h
  | closed =>
    cases phase with
    | closing =>
      cases h
      exact .closed
    | _ => cases h
  | fail =>
    cases phase with
    | signalling =>
      cases h
      exact .abandon
    | done | abandoned => cases h
    | _ =>
      cases h
      exact .fail RefreshPhase.noConfusion RefreshPhase.noConfusion RefreshPhase.noConfusion

end RefreshPhase

/-- An instance with all calls there have been, and the times at which Tor accepted a command. -/
structure TorInstance where
  newnymCooldown : ℚ
  now : ℚ
  lastNewnym : ℚ
  calls : List RefreshCall
  accepted : List ℚ
  deriving DecidableEq

namespace TorInstance

inductive Label
  | elapse (dt : ℚ)
  | refreshCircuit
  | event (i : Nat) (e : RefreshEvent)
  deriving DecidableEq

/-- `refresh_circuit` as far as its first `await`. -/
def enter (s : TorInstance) : RefreshCall :=
  let elapsed := s.now - s.lastNewnym
  ⟨s.lastNewnym, if elapsed < s.newnymCooldown then .sleeping (s.now + (s.newnymCooldown - elapsed))
    else .connecting⟩

def step (s : TorInstance) : Label → Option TorInstance
  | .elapse dt => if 0 ≤ dt then some { s with now := s.now + dt } else none
  | .refreshCircuit => some { s with calls := s.calls ++ [s.enter] }
  | .event i e => do
    let call ← s.calls[i]?
    let phase ← call.phase.next s.now e
    some { s with
      lastNewnym := if call.phase.records e then s.now else s.lastNewnym
      calls := s.calls.set i { call with phase := phase }
      accepted := if e = .accept then s.accepted ++ [s.now] else s.accepted }

def machine (newnymCooldown start : ℚ) : Machine TorInstance Label :=
  ⟨⟨newnymCooldown, start, 0, [], []⟩, step⟩

/-- A command comes at least the cooldown after every earlier one. -/
def Apart (s : TorInstance) : Prop := s.accepted.Pairwise fun a b => a + s.newnymCooldown ≤ b

/-- A command is accepted from a call that began when all those before had been recorded, or one
after them. -/
def Fresh (s : TorInstance) : Label → Prop
  | .event i .accept => ∀ call ∈ s.calls[i]?, ∀ t ∈ s.accepted, t ≤ call.seen
  | _ => True

instance (s : TorInstance) (l : Label) : Decidable (s.Fresh l) := by
  unfold Fresh
  split <;> infer_instance

structure Waited (cooldown now : ℚ) (call : RefreshCall) : Prop where
  asleep : ∀ ready, call.phase = .sleeping ready → ready = call.seen + cooldown
  past : call.phase.past = true → call.seen + cooldown ≤ now

structure Guarded (s : TorInstance) : Prop where
  apart : s.Apart
  waited : ∀ call ∈ s.calls, Waited s.newnymCooldown s.now call

variable {s s' : TorInstance} {l : Label} {call : RefreshCall} {phase : RefreshPhase} {e : RefreshEvent}
  {phase' : RefreshPhase} {i : Nat} {cooldown now start : ℚ}

theorem step_event (h : s.step (.event i e) = some s') : ∃ call phase, s.calls[i]? = some call ∧
    call.phase.next s.now e = some phase ∧ s' = { s with
      lastNewnym := if call.phase.records e then s.now else s.lastNewnym
      calls := s.calls.set i { call with phase := phase }
      accepted := if e = .accept then s.accepted ++ [s.now] else s.accepted } := by
  obtain ⟨call, hcall, h⟩ := Option.bind_eq_some_iff.mp h
  obtain ⟨phase, hphase, h⟩ := Option.bind_eq_some_iff.mp h
  cases h
  exact ⟨call, phase, hcall, hphase, rfl⟩

theorem Waited.mono {later : ℚ} (h : Waited cooldown now call) (hle : now ≤ later) :
    Waited cooldown later call := ⟨h.asleep, fun hpast => (h.past hpast).trans hle⟩

theorem past_of_next (h : phase.next now e = some phase') :
    (∀ ready, phase' ≠ .sleeping ready) ∧
      (phase'.past = true → phase.past = true ∨ ∃ ready, phase = .sleeping ready ∧ ready ≤ now) := by
  cases RefreshPhase.Next.of_next h with
  | wake hready => exact ⟨fun _ => RefreshPhase.noConfusion, fun _ => .inr ⟨_, rfl, hready⟩⟩
  | fail => exact ⟨fun _ => RefreshPhase.noConfusion, fun hpast => by cases hpast⟩
  | _ => exact ⟨fun _ => RefreshPhase.noConfusion, fun _ => .inl rfl⟩

theorem Waited.next (h : Waited cooldown now call) (hnext : call.phase.next now e = some phase) :
    Waited cooldown now { call with phase := phase } := by
  obtain ⟨hawake, hpast⟩ := past_of_next hnext
  refine ⟨fun ready heq => absurd heq (hawake ready), fun hp => ?_⟩
  rcases hpast hp with hold | ⟨ready, hasleep, hready⟩
  · exact h.past hold
  · rwa [h.asleep ready hasleep] at hready

theorem past_of_accept (h : phase.next now .accept = some phase') : phase.past = true := by
  cases RefreshPhase.Next.of_next h with
  | accept | late => rfl

theorem waited_enter (s : TorInstance) : Waited s.newnymCooldown s.now s.enter := by
  unfold enter
  dsimp only
  split
  · refine ⟨fun ready heq => ?_, fun hpast => by cases hpast⟩
    cases heq
    linarith
  · next hnot =>
    refine ⟨fun ready heq => ?_, fun _ => ?_⟩
    · cases heq
    · dsimp only
      linarith

theorem Guarded.step (h : s.Guarded) (hfresh : s.Fresh l) (hstep : s.step l = some s') : s'.Guarded := by
  cases l with
  | elapse dt =>
    rw [TorInstance.step] at hstep
    split at hstep
    · next hdt =>
      cases hstep
      exact ⟨h.apart, fun call hcall => (h.waited call hcall).mono (by simpa using hdt)⟩
    · cases hstep
  | refreshCircuit =>
    cases hstep
    refine ⟨h.apart, fun call hcall => ?_⟩
    rcases List.mem_append.mp hcall with hold | hnew
    · exact h.waited call hold
    · rw [List.mem_singleton.mp hnew]
      exact s.waited_enter
  | event i e =>
    obtain ⟨call, phase, hcall, hnext, rfl⟩ := step_event hstep
    have hwaited := h.waited call (List.mem_of_getElem? hcall)
    refine ⟨?_, fun c hc => ?_⟩
    · unfold Apart
      dsimp only
      split
      · next heq =>
        subst heq
        refine List.pairwise_append.mpr ⟨h.apart, List.pairwise_singleton _ _, fun t ht u hu => ?_⟩
        have hseen : t ≤ call.seen := hfresh call hcall t ht
        have hready := hwaited.past (past_of_accept hnext)
        rw [List.mem_singleton.mp hu]
        linarith
      · exact h.apart
    · rcases List.mem_or_eq_of_mem_set hc with hold | rfl
      · exact h.waited c hold
      · exact hwaited.next hnext

theorem guarded_of_reach (hs : (machine cooldown start).Reach Fresh s) : s.Guarded := by
  refine hs.invariant (I := Guarded) ?_ ?_
  · refine ⟨?_, fun call hcall => ?_⟩
    · exact List.Pairwise.nil
    · cases hcall
  · intro s l s' hI hfresh hstep
    exact hI.step hfresh hstep

theorem apart_of_fresh (cooldown start : ℚ) (s : TorInstance)
    (hs : (machine cooldown start).Reach Fresh s) : s.Apart := (guarded_of_reach hs).apart

def OneAtATime (s : TorInstance) : Label → Prop
  | .refreshCircuit => ∀ call ∈ s.calls, call.phase = .done
  | .event i .fail => ∀ call ∈ s.calls[i]?, call.phase.unanswered = true
  | _ => True

def Current (s : TorInstance) (call : RefreshCall) : Prop :=
  match call.phase with
  | .answered accepted | .closing accepted => ∀ t ∈ s.accepted, t ≤ s.lastNewnym ∨ accepted = some t
  | .done | .abandoned => False
  | _ => ∀ t ∈ s.accepted, t ≤ s.lastNewnym ∧ t ≤ call.seen

structure Quiet (s : TorInstance) : Prop where
  done : ∀ call ∈ s.calls, call.phase = .done
  recorded : ∀ t ∈ s.accepted, t ≤ s.lastNewnym

structure Orderly (s : TorInstance) : Prop where
  past : ∀ t ∈ s.accepted, t ≤ s.now
  calls : s.Quiet ∨ ∃ old call, s.calls = old ++ [call] ∧ (∀ c ∈ old, c.phase = .done) ∧ s.Current call

theorem next_done : RefreshPhase.done.next now e = none := by
  cases e with
  | _ => rfl

theorem Orderly.of_getElem? (h : s.Orderly) (hcall : s.calls[i]? = some call)
    (hnext : call.phase.next s.now e = some phase) :
    ∃ old, s.calls = old ++ [call] ∧ i = old.length ∧ (∀ c ∈ old, c.phase = .done) ∧ s.Current call := by
  have hnot : call.phase ≠ .done := by
    intro hdone
    rw [hdone, next_done] at hnext
    cases hnext
  rcases h.calls with hquiet | ⟨old, cur, hcalls, hold, hcur⟩
  · exact absurd (hquiet.done call (List.mem_of_getElem? hcall)) hnot
  · rw [hcalls, List.getElem?_append] at hcall
    split at hcall
    · exact absurd (hold call (List.mem_of_getElem? hcall)) hnot
    · next hle =>
      obtain ⟨hi, hget⟩ := List.getElem?_eq_some_iff.mp hcall
      have hzero : i - old.length = 0 := by simpa using hi
      simp only [hzero, List.getElem_cons_zero] at hget
      subst hget
      exact ⟨old, hcalls, by omega, hold, hcur⟩

theorem Orderly.fresh (h : s.Orderly) (hstep : s.step l = some s') : s.Fresh l := by
  cases l with
  | elapse | refreshCircuit => trivial
  | event i e =>
    obtain ⟨call, phase, hcall, hnext, rfl⟩ := step_event hstep
    cases e with
    | accept =>
      intro c hc t ht
      cases hcall.symm.trans hc
      obtain ⟨old, -, -, -, hcur⟩ := h.of_getElem? hcall hnext
      have hcases := RefreshPhase.Next.of_next hnext
      unfold Current at hcur
      generalize call.phase = p at hcur hcases
      cases hcases with
      | accept => exact (hcur t ht).2
      | late => exact hcur.elim
    | _ => trivial

theorem records_of_ne {p : RefreshPhase} (h : e ≠ .closed) : p.records e = false := by
  unfold RefreshPhase.records
  split
  · exact absurd rfl h
  · rfl

theorem Current.fail (h : s.Current call) (hunanswered : call.phase.unanswered = true)
    (hnext : call.phase.next s.now .fail = some phase) :
    phase = .done ∧ ∀ t ∈ s.accepted, t ≤ s.lastNewnym := by
  unfold Current at h
  cases hphase : call.phase with
  | sleeping | connecting | authenticating =>
    rw [hphase] at h hnext
    cases hnext
    exact ⟨rfl, fun t ht => (h t ht).1⟩
  | signalling =>
    rw [hphase] at hunanswered
    cases hunanswered
  | answered accepted | closing accepted =>
    rw [hphase] at h hunanswered hnext
    cases hnext
    cases accepted with
    | none => exact ⟨rfl, fun t ht => (h t ht).resolve_right (by simp)⟩
    | some _ => cases hunanswered
  | done | abandoned =>
    rw [hphase] at h
    exact h.elim

theorem Current.event (h : s.Current call) (hpast : ∀ t ∈ s.accepted, t ≤ s.now)
    (hnext : call.phase.next s.now e = some phase) (hfail : e = .fail → call.phase.unanswered = true)
    (hlast : s'.lastNewnym = if call.phase.records e then s.now else s.lastNewnym)
    (haccepted : s'.accepted = if e = .accept then s.accepted ++ [s.now] else s.accepted) :
    (phase = .done ∧ ∀ t ∈ s'.accepted, t ≤ s'.lastNewnym) ∨ s'.Current { call with phase := phase } := by
  have hkeep : e ≠ .closed → e ≠ .accept → s'.lastNewnym = s.lastNewnym ∧ s'.accepted = s.accepted := by
    intro hclosed hne
    rw [hlast, haccepted, records_of_ne hclosed, if_neg hne]
    exact ⟨rfl, rfl⟩
  have hquiet : e = .fail → phase = .done ∧ ∀ t ∈ s.accepted, t ≤ s.lastNewnym := by
    rintro rfl
    exact h.fail (hfail rfl) hnext
  have hcases := RefreshPhase.Next.of_next hnext
  unfold Current at h ⊢
  generalize call.phase = p at h hlast hcases
  cases hcases with
  | wake | connected | authenticated | reply =>
    obtain ⟨hl, ha⟩ := hkeep RefreshEvent.noConfusion RefreshEvent.noConfusion
    rw [hl, ha]
    exact .inr h
  | rejected =>
    obtain ⟨hl, ha⟩ := hkeep RefreshEvent.noConfusion RefreshEvent.noConfusion
    rw [hl, ha]
    exact .inl ⟨rfl, fun t ht => (h t ht).1⟩
  | accept =>
    rw [hlast, haccepted]
    refine .inr fun t ht => ?_
    rcases List.mem_append.mp ht with hold | hnew
    · exact .inl (h t hold).1
    · exact .inr (congrArg some (List.mem_singleton.mp hnew).symm)
  | refuse =>
    obtain ⟨hl, ha⟩ := hkeep RefreshEvent.noConfusion RefreshEvent.noConfusion
    rw [hl, ha]
    exact .inr fun t ht => .inl (h t ht).1
  | late => exact h.elim
  | @closed accepted =>
    rw [haccepted, hlast]
    cases accepted with
    | none => exact .inl ⟨rfl, fun t ht => (h t ht).resolve_right (by simp)⟩
    | some _ => exact .inl ⟨rfl, hpast⟩
  | abandon => cases (hquiet rfl).1
  | fail =>
    obtain ⟨hl, ha⟩ := hkeep RefreshEvent.noConfusion RefreshEvent.noConfusion
    rw [hl, ha]
    exact .inl (hquiet rfl)

theorem Orderly.step (h : s.Orderly) (hone : s.OneAtATime l) (hstep : s.step l = some s') : s'.Orderly := by
  cases l with
  | elapse dt =>
    rw [TorInstance.step] at hstep
    split at hstep
    · next hdt =>
      cases hstep
      refine ⟨fun t ht => (h.past t ht).trans (by simpa using hdt), ?_⟩
      rcases h.calls with hquiet | hcur
      · exact .inl ⟨hquiet.done, hquiet.recorded⟩
      · exact .inr hcur
    · cases hstep
  | refreshCircuit =>
    cases hstep
    refine ⟨h.past, .inr ⟨s.calls, s.enter, rfl, hone, ?_⟩⟩
    have hrecorded : ∀ t ∈ s.accepted, t ≤ s.lastNewnym := by
      rcases h.calls with hquiet | ⟨old, call, hcalls, -, hcur⟩
      · exact hquiet.recorded
      · have hdone := hone call (by simp [hcalls])
        unfold Current at hcur
        rw [hdone] at hcur
        exact hcur.elim
    unfold Current enter
    dsimp only
    by_cases hearly : s.now - s.lastNewnym < s.newnymCooldown
    · rw [if_pos hearly]
      exact fun t ht => ⟨hrecorded t ht, hrecorded t ht⟩
    · rw [if_neg hearly]
      exact fun t ht => ⟨hrecorded t ht, hrecorded t ht⟩
  | event i e =>
    obtain ⟨call, phase, hcall, hnext, hs'⟩ := step_event hstep
    obtain ⟨old, hcalls, rfl, hold, hcur⟩ := h.of_getElem? hcall hnext
    have hafter : s'.calls = old ++ [{ call with phase := phase }] := by
      rw [hs', hcalls]
      simp
    have hfail : e = .fail → call.phase.unanswered = true := by
      rintro rfl
      exact hone call hcall
    refine ⟨?_, ?_⟩
    · rw [hs']
      dsimp only
      split
      · intro t ht
        rcases List.mem_append.mp ht with hbefore | hnew
        · exact h.past t hbefore
        · exact (List.mem_singleton.mp hnew).le
      · exact h.past
    · have hlast : s'.lastNewnym = if call.phase.records e then s.now else s.lastNewnym := by rw [hs']
      have haccepted : s'.accepted = if e = .accept then s.accepted ++ [s.now] else s.accepted := by rw [hs']
      rcases hcur.event h.past hnext hfail hlast haccepted with ⟨rfl, hrecorded⟩ | hcur'
      · refine .inl ⟨fun c hc => ?_, hrecorded⟩
        rw [hafter] at hc
        rcases List.mem_append.mp hc with hbefore | hnew
        · exact hold c hbefore
        · rw [List.mem_singleton.mp hnew]
      · exact .inr ⟨old, _, hafter, hold, hcur'⟩

theorem fresh_of_oneAtATime (hs : (machine cooldown start).Reach OneAtATime s) :
    (machine cooldown start).Reach Fresh s := by
  have hboth : (machine cooldown start).Reach Fresh s ∧ s.Orderly := by
    induction hs with
    | init =>
      refine ⟨.init, fun t ht => ?_, .inl ⟨fun c hc => ?_, fun t ht => ?_⟩⟩
      · cases ht
      · cases hc
      · cases ht
    | step _ hone hstep ih => exact ⟨.step ih.1 (ih.2.fresh hstep) hstep, ih.2.step hone hstep⟩
  exact hboth.1

theorem apart_two_refreshes : ∃ s : TorInstance, s.Apart ∧ s.accepted = [20, 30] := by
  have hrun : ∃ s, (machine 10 20).Reach Fresh s ∧ s.accepted = [20, 30] :=
    Machine.exists_reach_if
      [.refreshCircuit, .event 0 .connected, .event 0 (.authenticated true), .event 0 .accept,
        .event 0 .reply, .event 0 .closed, .elapse 4, .refreshCircuit, .elapse 6, .event 1 .wake,
        .event 1 .connected, .event 1 (.authenticated true), .event 1 .accept]
      (by decide +kernel)
  obtain ⟨s, hs, haccepted⟩ := hrun
  exact ⟨s, apart_of_fresh 10 20 s hs, haccepted⟩

/-- The loop and a request refresh at the same time. -/
theorem second_signal_at_once : ¬ ∀ (cooldown start : ℚ) (s : TorInstance),
    (machine cooldown start).Reachable s → s.Apart := by
  intro h
  obtain ⟨s, hs, hcooldown, haccepted⟩ := Machine.exists_reachable (M := machine 10 20)
    (P := fun s => s.newnymCooldown = 10 ∧ s.accepted = [20, 20])
    [.refreshCircuit, .refreshCircuit, .event 0 .connected, .event 1 .connected,
      .event 0 (.authenticated true), .event 1 (.authenticated true), .event 0 .accept,
      .event 1 .accept] (by decide +kernel)
  have hapart := h 10 20 s hs
  rw [Apart, hcooldown, haccepted] at hapart
  exact absurd hapart (by decide +kernel)

end TorInstance

end ProxySplit
