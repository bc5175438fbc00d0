import ProxySplit.Fetchers.Head
import ProxySplit.Fetchers.Chunk
import ProxySplit.Streaming.Plan
import ProxySplit.Cache

namespace ProxySplit

open Lib

inductive Part
  | requestProxy
  | headPicks
  | rangeProbe
  | race
  | whole
  | revalidate
  deriving DecidableEq

/-- A fetcher that runs as a task of its own, with what it did and what it ended with. -/
structure Task {α : Type} (p : Fetch (Except PyExc α)) where
  trace : FetchTrace
  result : Except PyExc α
  runs : Prog.Runs p trace result

def firstAnswer {args : ProbeArgs} {proxies : List Url}
    (tasks : (i : Fin proxies.length) → Option (Task (tryHead args (proxies.get i))))
    (seen : List (Fin proxies.length)) : Option HeadInfo :=
  seen.findSome? fun i => (tasks i).bind fun t => t.result.toOption.join

/-- The tasks of stage 1 of `get_head_info` and the order in which its loop gets to see the finished
ones.  The loop ends with the first answer, or when the request is cancelled. -/
structure HeadsRun (args : ProbeArgs) (proxies : List Url) where
  tasks : (i : Fin proxies.length) → Option (Task (tryHead args (proxies.get i)))
  seen : List (Fin proxies.length)
  interrupted : Bool
  finished : interrupted = false → firstAnswer tasks seen = none →
    ∀ i, i ∈ seen ∧ (tasks i).isSome

def HeadsRun.outcome {args : ProbeArgs} {proxies : List Url} (run : HeadsRun args proxies) :
    Except PyExc (Option HeadInfo) :=
  if run.interrupted then .error .cancelled else .ok (firstAnswer run.tasks run.seen)

/-- The tasks of `asyncio.gather`, which waits for all of them unless the request is cancelled.  A
semaphore without permits lets none start. -/
structure GatherRun (maxWorkers retryBudget : Nat) (jobs : List ChunkJob) where
  tasks : (i : Fin jobs.length) → Option (Task (fetchChunk (jobs.get i)))
  interrupted : Bool
  started : ∀ i, (tasks i).isSome → 0 < maxWorkers
  finished : interrupted = false → ∀ i, (tasks i).isSome

def GatherRun.results {maxWorkers retryBudget : Nat} {jobs : List ChunkJob}
    (run : GatherRun maxWorkers retryBudget jobs) : List (Except PyExc ChunkResult) :=
  (List.finRange jobs.length).filterMap fun i => (run.tasks i).map Task.result

/-- The fetches that `_ProgressiveStream.send` started, and whether it came to its end. -/
structure StreamRun (plan : StreamPlan) (jobs : List ChunkJob) where
  tasks : (i : Fin jobs.length) → Option (Task (fetchChunk (jobs.get i)))
  raceTask : (job : ChunkJob) → plan.raceJob = some job → Option (Task (fetchChunk job))
  outcome : Except PyExc Unit
  started : ∀ i, (tasks i).isSome → plan.Starts

inductive RequestEffect
  | fetch (part : Part) (e : FetchEffect)
  | heads (args : ProbeArgs) (proxies : List Url)
  | readPool (pool : Option String)
  | prewarm (proxies : List Url) (url : String)
  | distribute (numChunks : Nat) (pool pin : Option String) (weighted : Bool) (excludeWindow : Int)
  | chunkSizes (assigned : List Url) (base minimum maximum : Int)
  | gather (maxWorkers retryBudget : Nat) (jobs : List ChunkJob)
  | stream (plan : StreamPlan) (jobs : List ChunkJob)
  | diverge
  | readBody
  | deadline
  | cacheGet (url : Url)
  | cacheValidators (url : Url)
  | cachePut (url : Url) (r : Cached)
  | diskGet (url : Url)
  | diskPut (url : Url) (r : Cached)
  deriving DecidableEq

@[reducible] def RequestAnswer : RequestEffect → Type
  | .fetch _ e => FetchAnswer e
  | .heads args proxies => HeadsRun args proxies
  | .readPool _ => PoolView
  | .prewarm .. => Unit
  | .distribute .. => Nat → PoolView
  | .chunkSizes .. => Nat → Int
  | .gather maxWorkers retryBudget jobs => GatherRun maxWorkers retryBudget jobs
  | .stream plan jobs => StreamRun plan jobs
  | .diverge => Empty
  | .readBody => Except PyExc Bytes
  | .deadline => Bool
  | .cacheGet _ => Option Cached
  | .cacheValidators _ => Option (Option String × Option String)
  | .cachePut .. => Unit
  | .diskGet _ => Except PyExc (Option Cached)
  | .diskPut .. => Unit

abbrev Request := Prog RequestEffect RequestAnswer

abbrev perform (e : RequestEffect) : Request (RequestAnswer e) := Prog.call e

def within {α : Type} (part : Part) (p : Fetch α) : Request α :=
  p.embed (RequestEffect.fetch part) fun _ x => x

abbrev RequestTrace := List (Prog.Event RequestEffect RequestAnswer)

section Within

open Prog

variable {α β σ : Type} {part : Part} {p : Fetch α}

theorem within_bind {f : α → Fetch β} :
    within part (p >>= f) = within part p >>= fun a => within part (f a) := by
  induction p with
  | pure a => rfl
  | perform e k ih => exact congrArg (Prog.perform (RequestEffect.fetch part e)) (funext ih)

theorem keepsWith_within {m : Monitor RequestEffect RequestAnswer σ}
    {n : Monitor FetchEffect FetchAnswer σ} {rely : (e : RequestEffect) → RequestAnswer e → Prop}
    {rely' : (e : FetchEffect) → FetchAnswer e → Prop}
    (hm : ∀ s e x, m s (.fetch part e) x = n s e x) (hrely : ∀ e x, rely (.fetch part e) x → rely' e x)
    {Q : σ → α → Prop} {s : σ} (hp : KeepsWith n rely' (fun _ _ _ => True) p Q s) :
    KeepsWith m rely (fun _ _ _ => True) (within part p) Q s :=
  hp.embed hm hrely fun _ _ _ h => h

theorem keeps_within {rely good : (e : RequestEffect) → RequestAnswer e → Prop} {Q : α → Prop} :
    Keeps rely good (within part p) Q ↔
      Keeps (fun e x => rely (.fetch part e) x) (fun e x => good (.fetch part e) x) p Q := by
  induction p with
  | pure a => exact Iff.rfl
  | perform e k ih =>
    exact forall_congr' fun x => imp_congr_right fun _ => and_congr_right fun _ => ih x

end Within

end ProxySplit
