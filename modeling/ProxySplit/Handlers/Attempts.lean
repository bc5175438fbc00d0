import ProxySplit.Fetchers.BreakerUse
import ProxySplit.Fetchers.RetryBudget
import ProxySplit.Handlers.ChunkStart

namespace ProxySplit

open Lib Prog

/-- The `fetch_chunk` calls of a request, with the number of its chunks and the retry budget that they
share. -/
structure ChunkBatch where
  numChunks : Nat
  race : Bool
  budget : Nat
  calls : List ChunkJob

def chunkBatch : RequestEffect → Option ChunkBatch
  | .gather _ retryBudget jobs => some ⟨jobs.length, false, retryBudget, jobs⟩
  | .stream plan jobs =>
    some ⟨plan.numChunks, plan.config.race, plan.retryBudget, jobs ++ plan.raceJob.toList⟩
  | _ => none

/-- What `handle_inner` makes of the settings. -/
structure ChunkBatch.Follows (b : ChunkBatch) (cfg : RequestConfig) : Prop where
  budget : b.budget = if 0 < cfg.retryBudgetTotal then cfg.retryBudgetTotal.toNat
    else b.numChunks * (max (cfg.chunkRetries - 1) 1).toNat
  calls : b.calls.length ≤ b.numChunks + if b.race then 1 else 0
  retryBudget : ∀ job ∈ b.calls, job.retryBudget = true
  chunkRetries : ∀ job ∈ b.calls, job.chunkRetries = cfg.chunkRetries

/-- At any time of any run of the calls side by side they have sent a GET for each chunk, one for the race
and one for each slot of the budget between them, and each of them as many as it has attempts. -/
def ChunkBatch.Bounded (b : ChunkBatch) (attempts : Nat) : Prop :=
  ∀ s, (chunkFetches b.calls b.budget).Reachable s →
    ∑ i, total gets (s.trace i) ≤ b.numChunks + (if b.race then 1 else 0) + b.budget ∧
      ∀ i, total gets (s.trace i) ≤ attempts

theorem starts_of_chunkBatch {e : RequestEffect} {b : ChunkBatch} (h : chunkBatch e = some b) :
    startsChunks e = true := by
  cases e with
  | gather | stream => rfl
  | _ => cases h

theorem follows_of_startsSplit {S : List ChunkRange → List Url → Prop} {cfg : RequestConfig}
    {req : ClientRequest} {url : Url} {rid : String} {chunkSize : Int} {body : Option Bytes}
    {e : RequestEffect} (he : StartsSplit S (innerArgs cfg req url rid chunkSize body) e)
    {b : ChunkBatch} (hb : chunkBatch e = some b) : b.Follows cfg := by
  cases e with
  | gather maxWorkers budget jobs =>
    cases hb
    obtain ⟨ranges, assigned, -, hjobs, rfl⟩ := he
    constructor
    · rw [length_of_chunkJobs hjobs]
      rfl
    · simp
    · intro job hjob
      obtain ⟨r, p, -, rfl⟩ := mem_of_chunkJobs hjobs hjob
      rfl
    · intro job hjob
      obtain ⟨r, p, -, rfl⟩ := mem_of_chunkJobs hjobs hjob
      rfl
  | stream plan jobs =>
    cases hb
    obtain ⟨⟨n, ct, w, ranges, assigned, raceProxy, -, rfl⟩, hjobs⟩ := he
    generalize hplan : (innerArgs cfg req url rid chunkSize body).plan n ct w ranges assigned
      raceProxy = plan at hjobs
    have hjob : ∀ job ∈ jobs ++ plan.raceJob.toList, ∃ r p, job = plan.job r p := by
      intro job hjob
      rcases List.mem_append.mp hjob with hjob | hjob
      · obtain ⟨r, p, -, heq⟩ := mem_of_chunkJobs hjobs hjob
        exact ⟨r, p, heq⟩
      · obtain ⟨-, r, p, -, heq⟩ := StreamPlan.race_of_raceJob (Option.mem_toList.mp hjob)
        exact ⟨r, p, heq⟩
    constructor
    · subst hplan
      rfl
    · have hlen : jobs.length = plan.numChunks := by
        rw [length_of_chunkJobs hjobs, ← hplan]
        rfl
      have hrace : plan.raceJob.toList.length ≤ if plan.config.race then 1 else 0 := by
        cases h : plan.raceJob with
        | none => exact Nat.zero_le _
        | some job => simp [(StreamPlan.race_of_raceJob h).1]
      rw [List.length_append, hlen]
      exact Nat.add_le_add_left hrace _
    · intro job hmem
      obtain ⟨r, p, rfl⟩ := hjob job hmem
      rfl
    · intro job hmem
      obtain ⟨r, p, rfl⟩ := hjob job hmem
      rw [← hplan]
      rfl
  | _ => cases hb

theorem ChunkBatch.Follows.bounded {b : ChunkBatch} {cfg : RequestConfig} (h : b.Follows cfg) :
    b.Bounded cfg.chunkRetries.toNat := by
  intro s hs
  constructor
  · calc ∑ i, total gets (s.trace i)
        ≤ b.calls.length + b.budget := sum_gets_le h.retryBudget hs
      _ ≤ b.numChunks + (if b.race then 1 else 0) + b.budget := Nat.add_le_add_right h.calls _
  · intro i
    have hcall : b.calls.get i ∈ b.calls := List.get_mem _ _
    have hsteps := (Crew.conserved_of_reachable hs).steps i
    rw [← h.chunkRetries _ hcall]
    exact (gets_le (h.retryBudget _ hcall) hsteps).2

/-- A request calls `fetch_chunk` for one batch of chunks at most, and the GETs of the batch are bounded by
its number of chunks and its budget, and those of each call by its attempts. -/
theorem attempts_bounded (cfg : RequestConfig) (req : ClientRequest) (rid : String)
    (sizer : Option Int) (tr : RequestTrace) (rest : Request Reply)
    (h : Steps (handleRequest cfg req rid sizer) tr rest) :
    (tr.filterMap fun ev => chunkBatch ev.1).length ≤ 1 ∧
      ∀ b ∈ tr.filterMap fun ev => chunkBatch ev.1,
        b.Follows cfg ∧ b.Bounded cfg.chunkRetries.toNat := by
  have hS : ∀ url chunkSize body w, Allots (fun _ _ => True) (fun _ _ => True)
      (innerArgs cfg req url rid chunkSize body) w :=
    fun _ _ _ _ _ _ _ _ => keeps_rebalance.mono (fun _ _ h => h) (fun _ _ _ h => h)
      fun _ _ _ _ _ => trivial
  have hkeeps := (startSpec_handleRequest hS).always h fun _ _ => trivial
  refine ⟨starts_le_one (fun ev b => starts_of_chunkBatch) hkeeps, ?_⟩
  intro b hb
  obtain ⟨ev, hev, hbatch⟩ := List.mem_filterMap.mp hb
  obtain ⟨url, chunkSize, body, hsplit⟩ := of_startsChunks hkeeps hev (starts_of_chunkBatch hbatch)
  have hfollows := follows_of_startsSplit hsplit hbatch
  exact ⟨hfollows, hfollows.bounded⟩

theorem attempts_bounded_download : ∃ tr reply,
    Runs (handleRequest inTwoChunks (download []) "-" none) tr reply ∧
      (tr.filterMap fun ev => chunkBatch ev.1).length = 1 ∧
      ∀ b ∈ tr.filterMap fun ev => chunkBatch ev.1, b.Follows inTwoChunks ∧ b.Bounded 2 := by
  have hrun : ((handleRequest inTwoChunks (download []) "-" none).execWith
      (fileFrom ["http://10.0.0.1:8080"]
        (answering (.new 5 60 3600) []))).any
        (fun run => (run.1.filterMap fun ev => chunkBatch ev.1).length = 1) = true := by
    decide +kernel
  obtain ⟨tr, reply, hr, hone⟩ := exists_runs_of_any hrun
  exact ⟨tr, reply, hr, of_decide_eq_true hone,
    (attempts_bounded inTwoChunks (download []) "-" none tr _ hr.steps).2⟩

end ProxySplit
