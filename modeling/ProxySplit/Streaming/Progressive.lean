import ProxySplit.Lib.Semaphore
import ProxySplit.Streaming.Race

namespace ProxySplit

open Lib

/-- The settings of `_ProgressiveStream` that decide how its tasks wait for one another. -/
structure StreamConfig where
  numChunks : Nat
  maxWorkers : Nat
  prefetchAhead : Nat
  maxBufferBytes : Nat
  race : Bool
  deriving DecidableEq

/-- Where the task of a chunk is: waiting for its prefetch gate, inside or in front of
`fetch_sem` (the semaphore knows which), waiting for buffer space with a result in hand, woken
to look at the buffer again, finished, or a race. -/
inductive TaskPc
  | gate
  | sem
  | waitSpace (res : ChunkResult)
  | recheck (res : ChunkResult)
  | done
  | racing
  deriving DecidableEq

/-- Where the write loop is: before `ready[i].wait()` returns, in `resp.write`, or past its
`finally`. -/
inductive WriterPc
  | waitReady (i : Nat)
  | writing (i : Nat) (res : ChunkResult)
  | finished (failedAt : Option Int)
  | cancelled
  deriving DecidableEq

structure Stream (cfg : StreamConfig) where
  gates : Nat → Bool
  ready : Nat → Bool
  results : Nat → Option Fetched
  tasks : Nat → TaskPc
  entered : Nat
  fetchSem : Semaphore Nat cfg.maxWorkers
  bufBytes : Nat
  bufHasSpace : Bool
  race : Race
  writer : WriterPc
  written : Bytes

namespace Stream

variable {cfg : StreamConfig}

def loopHead (cfg : StreamConfig) (i : Nat) : WriterPc :=
  if i < cfg.numChunks then .waitReady i else .finished none

def init (cfg : StreamConfig) : Stream cfg where
  gates i := i < min cfg.prefetchAhead cfg.numChunks
  ready _ := false
  results _ := none
  tasks i := if cfg.race ∧ i = 0 then .racing else .gate
  entered := if cfg.race then 1 else 0
  fetchSem := .idle
  bufBytes := 0
  bufHasSpace := true
  race := .init
  writer := loopHead cfg 0
  written := []

def enterTask (s : Stream cfg) : Stream cfg :=
  { s with
    entered := s.entered + 1
    tasks := Function.update s.tasks s.entered .sem
    fetchSem := s.fetchSem.acquire s.entered }

/-- `results[i] = out` and `ready[i].set()`, on the way out of `async with fetch_sem`. -/
def finishTask (s : Stream cfg) (i : Nat) (out : Fetched) : Stream cfg :=
  { s with
    results := Function.update s.results i (some out)
    ready := Function.update s.ready i true
    tasks := Function.update s.tasks i .done
    fetchSem := s.fetchSem.release i }

/-- One look at the buffer, under `_buf_lock`, which nobody holds across an `await`. -/
def offer (s : Stream cfg) (i : Nat) (res : ChunkResult) : Stream cfg :=
  if s.bufBytes + res.data.length ≤ cfg.maxBufferBytes then
    { s with bufBytes := s.bufBytes + res.data.length }.finishTask i (.ok res)
  else
    { s with bufHasSpace := false, tasks := Function.update s.tasks i (.waitSpace res) }

/-- `_buf_has_space.set()` wakes every task that waits on it. -/
def wake : TaskPc → TaskPc
  | .waitSpace res => .recheck res
  | pc => pc

/-- What follows `await resp.write(data)` in the loop. -/
def afterWrite (s : Stream cfg) (i : Nat) (res : ChunkResult) : Stream cfg :=
  { s with
    bufBytes := s.bufBytes - res.data.length
    bufHasSpace := true
    tasks := fun j => wake (s.tasks j)
    gates := if i + 1 < cfg.numChunks then Function.update s.gates (i + 1) true else s.gates
    writer := loopHead cfg (i + 1) }

/-- The write loop past `await ready[i].wait()`.  A result that is missing does not unpack, and
the `TypeError` ends in `except Exception`. -/
def afterReady (s : Stream cfg) (i : Nat) : Stream cfg :=
  match s.results i with
  | some (.ok res) => { s with writer := .writing i res, written := s.written ++ res.data }
  | some (.error _) => { s with writer := .finished (some i) }
  | none => { s with writer := .finished (some (-1)) }

inductive Label
  | enter
  | fetchReturn (i : Nat) (res : Fetched)
  | recheck (i : Nat)
  | writerWake
  | writeDone
  | writeFail
  | cancel
  | race (l : Race.Label)

def Active (s : Stream cfg) : Prop :=
  match s.writer with
  | .waitReady _ | .writing _ _ => True
  | .finished _ | .cancelled => False

instance (s : Stream cfg) : Decidable s.Active := by
  unfold Active; split <;> infer_instance

/-- The race task stores its result when it gets that far. -/
def storeRace (s : Stream cfg) (r : Race) : Stream cfg :=
  match r.pc with
  | .stored out =>
    { s with
      race := r
      results := Function.update s.results 0 (some out)
      ready := Function.update s.ready 0 true
      tasks := Function.update s.tasks 0 .done }
  | _ => { s with race := r }

/-- Tasks get past their gates in the order of their creation: a gate is set after all gates
before it, and the event loop runs what is ready first in, first out. -/
def step (s : Stream cfg) : Label → Option (Stream cfg)
  | .enter =>
    if s.Active ∧ s.entered < cfg.numChunks ∧ s.gates (s.entered - cfg.prefetchAhead) then
      some s.enterTask
    else none
  | .fetchReturn i res =>
    if s.Active ∧ s.tasks i = .sem ∧ i ∈ s.fetchSem.holders ∧ res ≠ .error .cancelled then
      match res with
      | .ok res => some (s.offer i res)
      | .error exc => some (s.finishTask i (.error exc))
    else none
  | .recheck i =>
    match s.tasks i with
    | .recheck res => if s.Active then some (s.offer i res) else none
    | _ => none
  | .writerWake =>
    match s.writer with
    | .waitReady i => if s.ready i then some (s.afterReady i) else none
    | _ => none
  | .writeDone =>
    match s.writer with
    | .writing i res => some (s.afterWrite i res)
    | _ => none
  | .writeFail =>
    match s.writer with
    | .writing _ _ => some { s with writer := .finished (some (-1)) }
    | _ => none
  | .cancel => if s.Active then some { s with writer := .cancelled } else none
  | .race l =>
    if s.Active ∧ s.tasks 0 = .racing then (s.race.step l).map s.storeRace else none

def machine (cfg : StreamConfig) : Machine (Stream cfg) Label := ⟨init cfg, step⟩

end Stream

end ProxySplit
