import ProxySplit.Fetchers.Head
import ProxySplit.Handlers.Window
import ProxySplit.Streaming.Progressive

namespace ProxySplit

open Lib

/-- The fetch of a range, with `assigned[i]` for its index `i`. -/
def chunkJobOf (job : ChunkRange → Url → ChunkJob) (assigned : List Url) (r : ChunkRange) :
    Except PyExc ChunkJob :=
  match assigned[r.index]? with
  | some p => .ok (job r p)
  | none => .error (.other "list index out of range")

def chunkJobs (job : ChunkRange → Url → ChunkJob) (ranges : List ChunkRange)
    (assigned : List Url) : Except PyExc (List ChunkJob) := ranges.mapM (chunkJobOf job assigned)

/-- The fields of `_ProgressiveStream`. -/
structure StreamPlan where
  url : Url
  ranges : List ChunkRange
  assigned : List Url
  numChunks : Nat
  contentLength : Int
  ctClean : String
  chunkRetries : Int
  chunkProxy : Bool
  pool : Option String
  weighted : Bool
  maxWorkers : Nat
  prefetchAhead : Nat
  raceFirstChunk : Bool
  raceProxy : Option Url
  retryBudget : Nat
  requestId : String
  isPartial : Bool
  partialStart : Int
  partialEnd : Int
  fullContentLength : Int
  maxBufferBytes : Nat
  deriving DecidableEq

namespace StreamPlan

def status (plan : StreamPlan) : Nat := if plan.isPartial then 206 else 200

def contentRange (start stop length : Int) : String × String :=
  ("Content-Range", s!"bytes {start}-{stop}/{length}")

/-- What `resp.prepare` sends. -/
def headers (plan : StreamPlan) : Headers :=
  [("Content-Type", plan.ctClean), ("Content-Length", toString plan.contentLength),
    ("Accept-Ranges", "bytes"), ("X-Proxy-Chunks", toString plan.numChunks),
    ("X-Proxy-Mode", if plan.chunkProxy then "chunk-proxy" else "request-proxy"),
    ("X-Prefetch-Ahead", toString plan.prefetchAhead)] ++
  (if plan.raceFirstChunk then [("X-Race-Chunk0", "true")] else []) ++
  (if plan.isPartial then
    [contentRange plan.partialStart plan.partialEnd plan.fullContentLength] else [])

def job (plan : StreamPlan) (r : ChunkRange) (proxy : Url) : ChunkJob where
  url := plan.url
  start := r.start
  stop := r.stop
  index := r.index
  proxyUrl := proxy
  chunkRetries := plan.chunkRetries
  chunkProxy := plan.chunkProxy
  pool := plan.pool
  weighted := plan.weighted
  retryBudget := true
  requestId := plan.requestId

def jobs (plan : StreamPlan) : Except PyExc (List ChunkJob) :=
  chunkJobs plan.job plan.ranges plan.assigned

def raceJob (plan : StreamPlan) : Option ChunkJob :=
  if plan.raceFirstChunk then
    (truthy plan.raceProxy).bind fun p =>
      (plan.ranges.find? fun r => r.index = 0).map fun r => plan.job r p
  else none

def config (plan : StreamPlan) : StreamConfig where
  numChunks := plan.numChunks
  maxWorkers := plan.maxWorkers
  prefetchAhead := plan.prefetchAhead
  maxBufferBytes := plan.maxBufferBytes
  race := plan.raceFirstChunk && (truthy plan.raceProxy).isSome

/-- Some chunk can be fetched before anything is written. -/
def Starts (plan : StreamPlan) : Prop :=
  plan.raceJob.isSome ∨ 0 < plan.maxWorkers ∧ 0 < plan.prefetchAhead

instance (plan : StreamPlan) : Decidable plan.Starts := inferInstanceAs (Decidable (_ ∨ _))

end StreamPlan

theorem chunkJobs_cons {job : ChunkRange → Url → ChunkJob} {r : ChunkRange}
    {ranges : List ChunkRange} {assigned : List Url} {jobs : List ChunkJob} :
    chunkJobs job (r :: ranges) assigned = .ok jobs ↔
      ∃ j rest, chunkJobOf job assigned r = .ok j ∧ chunkJobs job ranges assigned = .ok rest ∧
        jobs = j :: rest := by
  rw [chunkJobs, List.mapM_cons]
  cases chunkJobOf job assigned r with
  | error exc => simp [bind, Except.bind]
  | ok j =>
    change (chunkJobs job ranges assigned >>= fun rest => pure (j :: rest)) = _ ↔ _
    cases chunkJobs job ranges assigned with
    | error exc => simp [bind, Except.bind]
    | ok rest => simp [bind, Except.bind, pure, Except.pure, eq_comm]

theorem forall₂_of_chunkJobs {job : ChunkRange → Url → ChunkJob} {ranges : List ChunkRange}
    {assigned : List Url} {jobs : List ChunkJob} (h : chunkJobs job ranges assigned = .ok jobs) :
    List.Forall₂ (fun r j => ∃ p ∈ assigned, j = job r p) ranges jobs := by
  induction ranges generalizing jobs with
  | nil => cases h; exact .nil
  | cons r ranges ih =>
    obtain ⟨j, rest, hj, hrest, rfl⟩ := chunkJobs_cons.mp h
    refine .cons ?_ (ih hrest)
    unfold chunkJobOf at hj
    split at hj
    · next p hp => cases hj; exact ⟨p, List.mem_of_getElem? hp, rfl⟩
    · cases hj

theorem mem_of_chunkJobs {job : ChunkRange → Url → ChunkJob} {ranges : List ChunkRange}
    {assigned : List Url} {jobs : List ChunkJob} (h : chunkJobs job ranges assigned = .ok jobs)
    {j : ChunkJob} (hj : j ∈ jobs) : ∃ r, ∃ p ∈ assigned, j = job r p := by
  obtain ⟨i, hi, rfl⟩ := List.mem_iff_getElem.mp hj
  have hall := forall₂_of_chunkJobs h
  exact ⟨_, hall.get (hall.length_eq ▸ hi) hi⟩

theorem length_of_chunkJobs {job : ChunkRange → Url → ChunkJob} {ranges : List ChunkRange}
    {assigned : List Url} {jobs : List ChunkJob} (h : chunkJobs job ranges assigned = .ok jobs) :
    jobs.length = ranges.length := (forall₂_of_chunkJobs h).length_eq.symm

theorem chunkJobs_of_indices {job : ChunkRange → Url → ChunkJob}
    (hjob : ∀ r p, (job r p).proxyUrl = p) {ranges : List ChunkRange} {assigned : List Url} {i : Nat}
    (hindex : ranges.map ChunkRange.index = List.range' i ranges.length)
    (hlen : assigned.length = i + ranges.length) :
    ∃ jobs, chunkJobs job ranges assigned = .ok jobs ∧
      jobs.map ChunkJob.proxyUrl = assigned.drop i := by
  induction ranges generalizing i with
  | nil => exact ⟨[], rfl, (List.drop_of_length_le hlen.le).symm⟩
  | cons r ranges ih =>
    rw [List.map_cons, List.length_cons, List.range'_succ, List.cons.injEq] at hindex
    rw [List.length_cons] at hlen
    have hlt : i < assigned.length := by omega
    obtain ⟨jobs, hjobs, hmap⟩ := ih hindex.2 (by omega)
    have hfirst : chunkJobOf job assigned r = .ok (job r assigned[i]) := by
      rw [chunkJobOf, hindex.1, List.getElem?_eq_getElem hlt]
    refine ⟨job r assigned[i] :: jobs, chunkJobs_cons.mpr ⟨_, jobs, hfirst, hjobs, rfl⟩, ?_⟩
    rw [List.map_cons, hjob, hmap, List.cons_getElem_drop_succ]

theorem StreamPlan.race_of_raceJob {plan : StreamPlan} {job : ChunkJob}
    (h : plan.raceJob = some job) : plan.config.race = true ∧
      ∃ r p, truthy plan.raceProxy = some p ∧ job = plan.job r p := by
  unfold raceJob at h
  split at h
  · next hrace =>
    obtain ⟨p, hp, h⟩ := Option.bind_eq_some_iff.mp h
    obtain ⟨r, -, rfl⟩ := Option.map_eq_some_iff.mp h
    exact ⟨by simp [config, hrace, hp], r, p, hp, rfl⟩
  · cases h

theorem chunkJobs_eq {job : ChunkRange → Url → ChunkJob} {start stop : Int}
    {ranges : List ChunkRange} {assigned : List Url} (hranges : Partition start stop ranges)
    (hlen : assigned.length = ranges.length) :
    ∃ jobs, chunkJobs job ranges assigned = .ok jobs ∧
      List.Forall₂ (fun r j => ∃ p ∈ assigned, j = job r p) ranges jobs := by
  have hindex : ∀ r ∈ ranges, r.index < assigned.length := by
    intro r hr
    have hmem : r.index ∈ ranges.map ChunkRange.index := List.mem_map_of_mem hr
    rw [hranges.indices, List.mem_range] at hmem
    exact hlen ▸ hmem
  suffices hjobs : ∃ jobs, chunkJobs job ranges assigned = .ok jobs by
    obtain ⟨jobs, hjobs⟩ := hjobs
    exact ⟨jobs, hjobs, forall₂_of_chunkJobs hjobs⟩
  clear hranges hlen
  induction ranges with
  | nil => exact ⟨[], rfl⟩
  | cons r ranges ih =>
    obtain ⟨jobs, hjobs⟩ := ih fun r hr => hindex r (.tail _ hr)
    have hlt := hindex r (.head _)
    refine ⟨_, chunkJobs_cons.mpr ⟨job r assigned[r.index], jobs, ?_, hjobs, rfl⟩⟩
    rw [chunkJobOf, List.getElem?_eq_getElem hlt]

end ProxySplit
