import ProxySplit.CircuitBreaker

namespace ProxySplit

open Lib

structure Waiter where
  caller : Nat
  url : Url
  event : Nat
  since : ℚ
  deriving DecidableEq

structure Returned where
  caller : Nat
  url : Url
  answer : Bool
  deriving DecidableEq

structure BreakerCallers where
  breaker : CircuitBreaker
  clock : Clock
  waiters : List Waiter
  deriving DecidableEq

namespace BreakerCallers

/-- What threads do.  A call of `allow_request` that waits is two locked sections, everything else is
one. -/
inductive Label
  | allowRequest (caller : Nat) (url : Url)
  | resume (n : Nat)
  | recordFailure (url : Url) (consecutive : Nat) (reason : String)
  | recordSuccess (url : Url)
  | release (url : Url)
  | elapse (dt : ℚ)
  deriving DecidableEq

def allowRequest (s : BreakerCallers) (caller : Nat) (url : Url) :
    BreakerCallers × Option Returned :=
  match s.breaker.allowEnter s.clock.monotonic url with
  | (.answer b, breaker) => ({ s with breaker := breaker }, some ⟨caller, url, b⟩)
  | (.wait ev, breaker) =>
    ({ s with
      breaker := breaker
      waiters := s.waiters ++ [⟨caller, url, ev, s.clock.monotonic⟩] }, none)

/-- The `wait` of the thread is over: its event has been set, or 30 s have passed. -/
def Ready (s : BreakerCallers) (w : Waiter) : Prop :=
  s.breaker.events[w.event]? = some true ∨ w.since + 30 ≤ s.clock.monotonic

instance (s : BreakerCallers) (w : Waiter) : Decidable (s.Ready w) :=
  inferInstanceAs (Decidable (_ ∨ _))

/-- One step, with the call of `allow_request` that returned in it. -/
def act (s : BreakerCallers) : Label → Option (BreakerCallers × Option Returned)
  | .allowRequest caller url => some (s.allowRequest caller url)
  | .resume n =>
    s.waiters[n]?.bind fun w =>
      if s.Ready w then
        some ({ s with waiters := s.waiters.eraseIdx n },
          some ⟨w.caller, w.url, s.breaker.allowResume w.url⟩)
      else none
  | .recordFailure url c reason =>
    some ({ s with breaker := s.breaker.recordFailure s.clock url c reason }, none)
  | .recordSuccess url =>
    some ({ s with breaker := (s.breaker.recordSuccess (.empty : ProxyStats Unit) url).1 }, none)
  | .release url =>
    some ({ s with breaker := (s.breaker.release (.empty : ProxyStats Unit) url).1 }, none)
  | .elapse dt =>
    if 0 ≤ dt then
      some ({ s with clock := ⟨s.clock.monotonic + dt, s.clock.time + dt⟩ }, none)
    else none

def step (s : BreakerCallers) (l : Label) : Option BreakerCallers := (s.act l).map Prod.fst

def returned (s : BreakerCallers) (l : Label) : Option Returned := (s.act l).bind Prod.snd

def machine (threshold : Nat) (baseDelay maxDelay : ℚ) (start : Clock) :
    Machine BreakerCallers Label := ⟨⟨.new threshold baseDelay maxDelay, start, []⟩, step⟩

def letThrough (url : Url) : BreakerCallers → List Label → List Nat
  | _, [] => []
  | s, l :: ls =>
    (((s.returned l).filter fun r => r.url = url ∧ r.answer).map Returned.caller).toList ++
      ((s.step l).map fun s' => letThrough url s' ls).getD []

def HalfOpen (url : Url) (s : BreakerCallers) : Prop := s.breaker.stateFor url = .halfOpen

instance (url : Url) : DecidablePred (HalfOpen url) :=
  fun s => inferInstanceAs (Decidable (s.breaker.stateFor url = .halfOpen))

section Step

variable {s s' : BreakerCallers} {l : Label} {url : Url} {r : Returned}

theorem refused_of_enter (hhalf : HalfOpen url s) {b : Bool} {now : ℚ}
    (h : (s.breaker.allowEnter now url).1 = .answer b) : b = false := by
  unfold CircuitBreaker.allowEnter at h
  rw [hhalf] at h
  simp only at h
  split at h
  · cases h
    rfl
  · cases h

theorem refused_of_halfOpen (hhalf : HalfOpen url s) (hr : s.returned l = some r)
    (hurl : r.url = url) : r.answer = false := by
  subst hurl
  cases l with
  | allowRequest caller url =>
    simp only [returned, act, allowRequest, Option.bind_some] at hr
    split at hr
    · next b breaker henter =>
      cases hr
      exact refused_of_enter hhalf (congrArg Prod.fst henter)
    · cases hr
  | resume n =>
    obtain ⟨out, hout, hr⟩ := Option.bind_eq_some_iff.mp hr
    obtain ⟨w, -, hw⟩ := Option.bind_eq_some_iff.mp hout
    split at hw
    · cases hw
      cases hr
      exact decide_eq_false (by rw [hhalf]; exact nofun)
    · cases hw
  | elapse dt =>
    obtain ⟨out, hout, hr⟩ := Option.bind_eq_some_iff.mp hr
    simp only [act] at hout
    split at hout
    · cases hout
      cases hr
    · cases hout
  | recordFailure => cases hr
  | recordSuccess => cases hr
  | release => cases hr

theorem allowRequest_breaker (caller : Nat) (u : Url) : (s.allowRequest caller u).1.breaker =
    (s.breaker.allowEnter s.clock.monotonic u).2 := by
  unfold allowRequest
  split
  · next henter => rw [henter]
  · next henter => rw [henter]

/-- A url becomes HALF_OPEN in one way only: it is OPEN, and a call of `allow_request` becomes its
probe and returns True. -/
theorem probe_of_enters (hnot : ¬ HalfOpen url s) (hs : s.step l = some s') (hhalf : HalfOpen url s') :
    ∃ caller, l = .allowRequest caller url ∧ s.breaker.stateFor url = .opened ∧
      s.returned l = some ⟨caller, url, true⟩ := by
  cases l with
  | allowRequest caller u =>
    cases hs
    rcases s.breaker.allowEnter_cases s.clock.monotonic u with hsame | ⟨hopen, -, hprobe⟩
    · rw [HalfOpen, allowRequest_breaker, hsame] at hhalf
      exact absurd hhalf hnot
    · by_cases hu : url = u
      · subst hu
        exact ⟨caller, rfl, hopen, by simp [returned, act, allowRequest, hprobe]⟩
      · rw [HalfOpen, allowRequest_breaker, hprobe] at hhalf
        exact absurd (by simpa [HalfOpen, CircuitBreaker.stateFor, hu] using hhalf) hnot
  | resume n =>
    obtain ⟨out, hout, rfl⟩ := Option.map_eq_some_iff.mp hs
    obtain ⟨w, -, hw⟩ := Option.bind_eq_some_iff.mp hout
    split at hw
    · cases hw
      exact absurd hhalf hnot
    · cases hw
  | recordFailure u c reason =>
    cases hs
    exact absurd (CircuitBreaker.halfOpen_of_recordFailure hhalf) hnot
  | recordSuccess u =>
    cases hs
    exact absurd (CircuitBreaker.halfOpen_of_recordSuccess hhalf) hnot
  | release u =>
    cases hs
    rw [HalfOpen, CircuitBreaker.stateFor_release] at hhalf
    split at hhalf
    · cases hhalf
    · exact absurd hhalf hnot
  | elapse dt =>
    simp only [step, act] at hs
    split at hs
    · cases hs
      exact absurd hhalf hnot
    · cases hs

theorem letThrough_eq_nil {threshold : Nat} {base max : ℚ} {start : Clock} {ls : List Label}
    {s₂ : BreakerCallers} (hrun : (machine threshold base max start).While (HalfOpen url) s ls s₂) :
    letThrough url s ls = [] := by
  induction hrun with
  | nil => rfl
  | @cons s l s' ls s'' hhalf hs _ ih =>
    have hnone : (s.returned l).filter (fun r => r.url = url ∧ r.answer) = none := by
      rw [Option.filter_eq_none_iff]
      intro r hr hin
      simp only [decide_eq_true_eq] at hin
      exact absurd (refused_of_halfOpen hhalf hr hin.1) (by simp [hin.2])
    have hstep : s.step l = some s' := hs
    rw [letThrough, hnone, hstep]
    exact ih

theorem closed_of_resume {n : Nat} (hr : s.returned (.resume n) = some r) (htrue : r.answer = true)
    (hs : s.step (.resume n) = some s') : s'.breaker.stateFor r.url = .closed := by
  obtain ⟨out, hout, hr⟩ := Option.bind_eq_some_iff.mp hr
  obtain ⟨out', hout', rfl⟩ := Option.map_eq_some_iff.mp hs
  cases hout.symm.trans hout'
  obtain ⟨w, -, hw⟩ := Option.bind_eq_some_iff.mp hout
  split at hw
  · cases hw
    cases hr
    exact of_decide_eq_true htrue
  · cases hw

end Step

/-- Whatever the threads do, from the moment a url becomes HALF_OPEN until it is no longer so, the
one call that is let through is the one that made it HALF_OPEN; and a call that waited is let through
only into a CLOSED url. -/
theorem single_probe (threshold : Nat) (base max : ℚ) (start : Clock) (url : Url)
    (s : BreakerCallers) :
    (∀ l s₁ ls s₂, ¬ HalfOpen url s → s.step l = some s₁ → HalfOpen url s₁ →
      (machine threshold base max start).While (HalfOpen url) s₁ ls s₂ →
        s.breaker.stateFor url = .opened ∧
          ∃ caller, l = .allowRequest caller url ∧ letThrough url s (l :: ls) = [caller]) ∧
    (∀ n s₁ r, s.step (.resume n) = some s₁ → s.returned (.resume n) = some r →
      r.answer = true → s₁.breaker.stateFor r.url = .closed) := by
  constructor
  · intro l s₁ ls s₂ hnot hstep hhalf hrun
    obtain ⟨caller, rfl, hopen, hreturned⟩ := probe_of_enters hnot hstep hhalf
    refine ⟨hopen, caller, rfl, ?_⟩
    have hrest : letThrough url s₁ ls = [] := letThrough_eq_nil hrun
    simp [letThrough, hreturned, hstep, hrest]
  · exact fun n s₁ r hstep hr htrue => closed_of_resume hr htrue hstep

def unbanned : BreakerCallers :=
  ⟨(CircuitBreaker.new 1 60 3600).openBan ⟨0, 0⟩ "http://10.0.0.1:8080" "consecutive failures",
    ⟨60, 60⟩, []⟩

theorem single_probe_with_waiter :
    letThrough "http://10.0.0.1:8080" unbanned [.allowRequest 1 "http://10.0.0.1:8080",
      .allowRequest 2 "http://10.0.0.1:8080",
      .recordFailure "http://10.0.0.1:8080" 1 "consecutive failures"] = [1] := by
  have hrun : (unbanned.step (.allowRequest 1 "http://10.0.0.1:8080")).any (fun s₁ =>
      HalfOpen "http://10.0.0.1:8080" s₁ ∧ ((machine 1 60 3600 ⟨0, 0⟩).runIf
        (fun s _ => HalfOpen "http://10.0.0.1:8080" s) s₁ [.allowRequest 2 "http://10.0.0.1:8080",
          .recordFailure "http://10.0.0.1:8080" 1 "consecutive failures"]).isSome) = true := by
    decide +kernel
  obtain ⟨s₁, hstep, hrun⟩ := (Option.any_eq_true _ _).mp hrun
  obtain ⟨hhalf, hsome⟩ := of_decide_eq_true hrun
  obtain ⟨s₂, hrun⟩ := Option.isSome_iff_exists.mp hsome
  obtain ⟨-, caller, hcaller, hthrough⟩ :=
    (single_probe 1 60 3600 ⟨0, 0⟩ "http://10.0.0.1:8080" unbanned).1 _ s₁ _ s₂ (by decide +kernel)
      hstep hhalf (.of_runIf hrun)
  cases hcaller
  exact hthrough

end BreakerCallers

end ProxySplit
