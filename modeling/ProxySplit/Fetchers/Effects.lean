import ProxySplit.Lib.Interaction
import ProxySplit.SessionPool
import Mathlib.Data.Finset.Option

namespace ProxySplit

open Lib

/-- What a fetch can raise.  `cancelled` is `asyncio.CancelledError`, the only one of them that
is not a subclass of `Exception`. -/
inductive PyExc
  | cancelled
  | timeout
  | clientConnector (msg : String)
  | valueError (msg : String)
  | runtimeError (msg : String)
  | other (msg : String)
  deriving DecidableEq

namespace PyExc

def isException : PyExc → Bool
  | .cancelled => false
  | _ => true

def str : PyExc → String
  | .cancelled | .timeout => ""
  | .clientConnector msg | .valueError msg | .runtimeError msg | .other msg => msg

end PyExc

structure HttpResponse where
  status : Nat
  headers : List (String × String)
  body : Bytes
  latencyMs : ℚ
  deriving DecidableEq

instance lawfulBEqHeader : LawfulBEq (String × String) := inferInstance

/-- The breaker as one call of `allow_request` finds it, and as it finds it again after waiting
for the probe of a half-open url. -/
structure AllowView where
  breaker : CircuitBreaker
  now : ℚ
  later : CircuitBreaker
  laterNow : ℚ
  deriving DecidableEq

def CircuitBreaker.Barred (b : CircuitBreaker) (now : ℚ) (url : Url) : Prop :=
  b.stateFor url = .opened ∧ now < b.openUntil url ∨ b.stateFor url = .halfOpen

instance (b : CircuitBreaker) (now : ℚ) (url : Url) : Decidable (b.Barred now url) :=
  inferInstanceAs (Decidable (_ ∨ _))

namespace AllowView

def answer (v : AllowView) (url : Url) : Bool :=
  match (v.breaker.allowEnter v.now url).1 with
  | .answer b => b
  | .wait _ => v.later.allowResume url

def takesProbe (v : AllowView) (url : Url) : Bool :=
  v.breaker.stateFor url = .opened ∧ v.breaker.openUntil url ≤ v.now

/-- The last state of the breaker the call read. -/
def seen (v : AllowView) (url : Url) : CircuitBreaker × ℚ :=
  match (v.breaker.allowEnter v.now url).1 with
  | .answer _ => (v.breaker, v.now)
  | .wait _ => (v.later, v.laterNow)

theorem not_barred_of_answer {v : AllowView} {url : Url} (h : v.answer url = true) :
    ¬ (v.seen url).1.Barred (v.seen url).2 url := by
  unfold answer CircuitBreaker.allowEnter at h
  unfold CircuitBreaker.Barred seen CircuitBreaker.allowEnter
  cases hs : v.breaker.stateFor url with
  | closed => simp [hs]
  | opened =>
    by_cases hnow : v.now < v.breaker.openUntil url
    · simp [hs, hnow] at h
    · simp [hs, hnow]
  | halfOpen =>
    cases hev : v.breaker.probeEvents.get? url with
    | none => simp [hs, hev] at h
    | some ev =>
      simp only [hs, hev, CircuitBreaker.allowResume, decide_eq_true_eq] at h
      simp [h]

theorem answer_of_takesProbe {v : AllowView} {url : Url} (h : v.takesProbe url = true) :
    v.answer url = true := by
  simp only [takesProbe, Bool.decide_and, Bool.and_eq_true, decide_eq_true_eq] at h
  simp [answer, CircuitBreaker.allowEnter, h.1, not_lt.mpr h.2]

end AllowView

/-- What a fetcher asks of its surroundings. -/
inductive FetchEffect
  | pickProxy (pool : Option String) (excludeSet : Finset Url) (weighted : Bool)
  | allowRequest (proxy : Url)
  | acquireRetrySlot
  | acquireLimiter (proxy : Url)
  | http (req : HttpRequest)
  | recordSuccess (proxy : Option Url) (nbytes : Nat) (latencyMs : ℚ)
  | recordFailure (proxy : Option Url)
  | recordChunk (latencyMs : ℚ)
  | invalidateSession (proxy : Option Url)
  deriving DecidableEq

@[reducible] def FetchAnswer : FetchEffect → Type
  | .pickProxy .. => PoolView
  | .allowRequest _ => AllowView
  | .acquireRetrySlot => Except PyExc Unit
  | .acquireLimiter _ => Except PyExc Unit
  | .http _ => Except PyExc HttpResponse
  | .recordSuccess .. => Unit
  | .recordFailure _ => Unit
  | .recordChunk _ => Unit
  | .invalidateSession _ => Unit

abbrev Fetch := Prog FetchEffect FetchAnswer

abbrev ask (e : FetchEffect) : Fetch (FetchAnswer e) := Prog.call e

abbrev FetchTrace := List (Prog.Event FetchEffect FetchAnswer)

/-- `session_pool.pick_proxy` without a pin. -/
def pickProxy (pool : Option String) (excludeSet : Finset Url) (weighted : Bool) :
    Fetch (Option Url) := do
  let view : PoolView ← ask (.pickProxy pool excludeSet weighted)
  return view.pickProxy pool excludeSet none weighted

/-- A pick that avoids the proxy in use, as `if alt:` reads it. -/
def pickOther (pool : Option String) (excludeSet : Finset Url) (weighted : Bool) :
    Fetch (Option Url) := do
  let alt ← pickProxy pool excludeSet weighted
  return truthy alt

end ProxySplit
