import ProxySplit.Fetchers.BreakerUse
import ProxySplit.Fetchers.ProxyInUse
import ProxySplit.Handlers.ChunkStart

namespace ProxySplit

open Lib Prog

def tracesOf {α : Type} {n : Nat} {p : Fin n → Fetch (Except PyExc α)}
    (tasks : (i : Fin n) → Option (Task (p i))) : List FetchTrace :=
  (List.finRange n).filterMap fun i => (tasks i).map Task.trace

def StreamRun.raceTrace {plan : StreamPlan} {jobs : List ChunkJob} (run : StreamRun plan jobs) :
    Option (Url × FetchTrace) :=
  match h : plan.raceJob with
  | some job => (run.raceTask job h).map fun t => (job.proxyUrl, t.trace)
  | none => none

def chunkTraces : (e : RequestEffect) → RequestAnswer e → List FetchTrace
  | .gather .., run => tracesOf (GatherRun.tasks run)
  | .stream .., run => tracesOf (StreamRun.tasks run)
  | _, _ => []

def raceTraces : (e : RequestEffect) → RequestAnswer e → List (Url × FetchTrace)
  | .stream .., run => (StreamRun.raceTrace run).toList
  | _, _ => []

/-- Every attempt to fetch a chunk goes through `p`. -/
def PinHolds (p : Url) (e : RequestEffect) (x : RequestAnswer e) : Prop :=
  ∀ t ∈ chunkTraces e x ++ (raceTraces e x).map Prod.snd, ∀ ev ∈ t, GoesThrough p ev.1 ev.2

/-- No pick takes the fetch of a chunk off `p`. -/
def PinUndisturbed (p : Url) (e : RequestEffect) (x : RequestAnswer e) : Prop :=
  (∀ t ∈ chunkTraces e x, StaysOn p p t) ∧ ∀ c ∈ raceTraces e x, StaysOn p c.1 c.2

instance (p : Url) (e : RequestEffect) (x : RequestAnswer e) : Decidable (PinUndisturbed p e x) :=
  inferInstanceAs (Decidable (_ ∧ _))

instance (p : Url) (e : RequestEffect) (x : RequestAnswer e) : Decidable (PinHolds p e x) :=
  inferInstanceAs (Decidable (∀ t ∈ chunkTraces e x ++ (raceTraces e x).map Prod.snd,
    ∀ ev ∈ t, GoesThrough p ev.1 ev.2))

theorem exists_task_of_mem {α : Type} {n : Nat} {p : Fin n → Fetch (Except PyExc α)}
    {tasks : (i : Fin n) → Option (Task (p i))} {t : FetchTrace} (h : t ∈ tracesOf tasks) :
    ∃ i, ∃ task : Task (p i), task.trace = t := by
  obtain ⟨i, -, hi⟩ := List.mem_filterMap.mp h
  obtain ⟨task, -, rfl⟩ := Option.map_eq_some_iff.mp hi
  exact ⟨i, task, rfl⟩

theorem StreamRun.exists_job_of_raceTrace {plan : StreamPlan} {jobs : List ChunkJob}
    {run : StreamRun plan jobs} {c : Url × FetchTrace} (h : run.raceTrace = some c) :
    ∃ job, ∃ task : Task (fetchChunk job), c = (job.proxyUrl, task.trace) := by
  unfold raceTrace at h
  split at h
  · next job hjob =>
    obtain ⟨task, -, rfl⟩ := Option.map_eq_some_iff.mp h
    exact ⟨job, task, rfl⟩
  · cases h

theorem Task.goesThrough_iff {job : ChunkJob} (task : Task (fetchChunk job)) {p : Url} :
    (∀ ev ∈ task.trace, GoesThrough p ev.1 ev.2) ↔ StaysOn p job.proxyUrl task.trace :=
  ProxySplit.goesThrough_iff task.runs.steps

theorem pinHolds_iff_of_jobs {p : Url} {e : RequestEffect} {x : RequestAnswer e}
    (hjobs : ∀ t ∈ chunkTraces e x, ∃ job, job.proxyUrl = p ∧
      ∃ task : Task (fetchChunk job), task.trace = t)
    (hrace : ∀ c ∈ raceTraces e x, ∃ job, ∃ task : Task (fetchChunk job),
      c = (job.proxyUrl, task.trace)) : PinHolds p e x ↔ PinUndisturbed p e x := by
  rw [PinHolds, List.forall_mem_append, List.forall_mem_map]
  refine and_congr (forall₂_congr fun t ht => ?_) (forall₂_congr fun c hc => ?_)
  · obtain ⟨job, rfl, task, rfl⟩ := hjobs t ht
    exact task.goesThrough_iff
  · obtain ⟨job, task, rfl⟩ := hrace c hc
    exact task.goesThrough_iff

theorem allots_pin {args : InnerArgs} {p : Url} (hpin : truthy args.pin = some p) (w : Window) :
    Allots (fun _ _ => True) (fun _ assigned => ∀ q ∈ assigned, q = p) args w := by
  intro ranges views _ _
  refine keeps_rebalance.mono (fun _ _ h => h) (fun _ _ _ h => h) fun out hout rs as hsome q hq => ?_
  have hmem := hout rs as hsome q hq
  rw [PoolView.distributeProxies, hpin] at hmem
  exact List.eq_of_mem_replicate hmem

theorem pinHolds_iff_of_startsSplit {args : InnerArgs} {p : Url} {e : RequestEffect}
    (he : StartsSplit (fun _ assigned => ∀ q ∈ assigned, q = p) args e) (x : RequestAnswer e) :
    PinHolds p e x ↔ PinUndisturbed p e x := by
  cases e with
  | gather maxWorkers budget jobs =>
    obtain ⟨ranges, assigned, hassigned, hjobs, -⟩ := he
    refine pinHolds_iff_of_jobs (fun t ht => ?_) nofun
    obtain ⟨i, task, rfl⟩ := exists_task_of_mem ht
    obtain ⟨r, q, hq, hjob⟩ := mem_of_chunkJobs hjobs (List.getElem_mem i.isLt)
    exact ⟨jobs.get i, by rw [List.get_eq_getElem, hjob]; exact hassigned q hq, task, rfl⟩
  | stream plan jobs =>
    obtain ⟨⟨n, ct, w, ranges, assigned, raceProxy, hassigned, rfl⟩, hjobs⟩ := he
    refine pinHolds_iff_of_jobs (fun t ht => ?_) fun c hc => ?_
    · obtain ⟨i, task, rfl⟩ := exists_task_of_mem ht
      obtain ⟨r, q, hq, hjob⟩ := mem_of_chunkJobs hjobs (List.getElem_mem i.isLt)
      exact ⟨jobs.get i, by rw [List.get_eq_getElem, hjob]; exact hassigned q hq, task, rfl⟩
    · exact StreamRun.exists_job_of_raceTrace (Option.mem_toList.mp hc)
  | _ => exact he.elim

/-- Under a pin every attempt to fetch a chunk goes through it, exactly when no GET of a chunk is made
after a pick that took the fetch, or the race, to another proxy, and the pin is one that can be sent
through. -/
theorem pinHolds_iff (cfg : RequestConfig) (req : ClientRequest) (rid : String) (sizer : Option Int)
    (p : Url) (hpin : truthy req.pin = some p) (tr : RequestTrace) (rest : Request Reply)
    (h : Steps (handleRequest cfg req rid sizer) tr rest) :
    (∀ ev ∈ tr, PinHolds p ev.1 ev.2) ↔ ∀ ev ∈ tr, PinUndisturbed p ev.1 ev.2 := by
  have hS : ∀ url chunkSize body w, Allots (fun _ _ => True) (fun _ assigned => ∀ q ∈ assigned, q = p)
      (innerArgs cfg req url rid chunkSize body) w := fun _ _ _ => allots_pin hpin
  have hkeeps := (startSpec_handleRequest hS).always h fun _ _ => trivial
  refine forall₂_congr fun ev hev => ?_
  cases hstart : startsChunks ev.1 with
  | true =>
    obtain ⟨url, chunkSize, body, hsplit⟩ := of_startsChunks hkeeps hev hstart
    exact pinHolds_iff_of_startsSplit hsplit ev.2
  | false =>
    obtain ⟨e, x⟩ := ev
    cases e with
    | gather | stream => cases hstart
    | _ => exact pinHolds_iff_of_jobs nofun nofun

def pinnedDownload : ClientRequest := download [("X-Proxy-Pin", "http://10.0.0.1:8080")]

theorem pinHolds_at_once : ∃ tr reply, Runs (handleRequest inTwoChunks pinnedDownload "-" none) tr reply ∧
    (tr.any fun ev => startsChunks ev.1) = true ∧
      ∀ ev ∈ tr, PinHolds "http://10.0.0.1:8080" ev.1 ev.2 := by
  have hrun : ((handleRequest inTwoChunks pinnedDownload "-" none).execWith
      (fileFrom ["http://10.0.0.1:8080", "http://10.0.0.2:8080"]
        (answering (.new 5 60 3600) [0, 1]))).any (fun run =>
          (run.1.any fun ev => startsChunks ev.1) &&
            run.1.all fun ev => PinUndisturbed "http://10.0.0.1:8080" ev.1 ev.2) = true := by
    decide +kernel
  obtain ⟨tr, reply, hr, hcheck⟩ := exists_runs_of_any hrun
  rw [Bool.and_eq_true, List.all_eq_true] at hcheck
  refine ⟨tr, reply, hr, hcheck.1, ?_⟩
  refine (pinHolds_iff inTwoChunks pinnedDownload "-" none _ (by decide +kernel) tr _ hr.steps).mpr ?_
  exact fun ev hev => of_decide_eq_true (hcheck.2 ev hev)

def withOther (other : Url) : (e : FetchEffect) → FetchAnswer e
  | .pickProxy .. => PoolView.viewOf [other]
  | e => answering (.new 5 60 3600) [] e

/-- The first attempts fail, and the second ones go through another proxy. -/
theorem pin_lost_on_retry : ∃ tr reply, Runs (handleRequest inTwoChunks pinnedDownload "-" none) tr reply ∧
    ¬ ∀ ev ∈ tr, PinHolds "http://10.0.0.1:8080" ev.1 ev.2 := by
  have hrun : ((handleRequest inTwoChunks pinnedDownload "-" none).execWith
      (fileFrom ["http://10.0.0.1:8080", "http://10.0.0.2:8080"]
        (withOther "http://10.0.0.2:8080"))).any (fun run =>
          ¬ ∀ ev ∈ run.1, PinHolds "http://10.0.0.1:8080" ev.1 ev.2) = true := by
    decide +kernel
  obtain ⟨tr, reply, hr, hnot⟩ := exists_runs_of_any hrun
  exact ⟨tr, reply, hr, of_decide_eq_true hnot⟩

end ProxySplit
