import ProxySplit.Fetchers.RetryNeed
import ProxySplit.Handlers.Attempts

namespace ProxySplit

open Lib Prog

/-- The fetches of the chunks as they run. -/
abbrev ChunkCrew (jobs : List ChunkJob) :=
  Crew (Fin jobs.length) FetchEffect FetchAnswer (Except PyExc ChunkResult)

section Fetches

variable {jobs : List ChunkJob} {budget : Nat} {s s' : ChunkCrew jobs} {i : Fin jobs.length}

def Starves (s : ChunkCrew jobs) (i : Fin jobs.length) : Prop :=
  (∃ k, s.rest i = .perform .acquireRetrySlot k) ∧ s.left = 0

def Prompt (s : ChunkCrew jobs) : Crew.Label (Fin jobs.length) FetchEffect FetchAnswer → Prop
  | .act _ ev => ev.1 = .acquireRetrySlot → slots ev.1 ev.2 = 0 → s.left = 0
  | .lose => False

structure Unstarved (s : ChunkCrew jobs) (i : Fin jobs.length) : Prop where
  slot : ¬ Starves s i
  attempts : ∀ exc, s.rest i = .pure (.error exc) → (∀ ev ∈ s.trace i, Unhindered ev.1 ev.2) →
    total gets (s.trace i) = (jobs.get i).chunkRetries.toNat

/-- The fetch of a chunk goes on when the fetches of the chunks before it have ended. -/
def InTurn (numChunks : Nat) (s : ChunkCrew jobs) :
    Crew.Label (Fin jobs.length) FetchEffect FetchAnswer → Prop
  | .act i _ => i < numChunks → ∀ j < i, ∃ out, s.rest j = .pure out
  | .lose => False

theorem left_pos (hbudget : ∑ j : Fin jobs.length, ((jobs.get j).chunkRetries.toNat - 1) ≤ budget)
    (hs : (chunkFetches jobs budget).Reach Prompt s) {k} (hask : s.rest i = .perform .acquireRetrySlot k) :
    0 < s.left := by
  have hsteps := (Crew.conserved_of_reachable hs.reachable).steps
  have hdrawn := Crew.drawn_eq (fun _ => id) hs
  have hlt : ∑ j, total slots (s.trace j) < ∑ j : Fin jobs.length, ((jobs.get j).chunkRetries.toNat - 1) := by
    refine Finset.sum_lt_sum (fun j _ => (slots_le (hsteps j)).1) ⟨i, Finset.mem_univ i, ?_⟩
    have hshort := (slots_le (hsteps i)).2 k hask
    change _ < (jobs.get i).chunkRetries.toNat - 1
    omega
  omega

theorem granted_of_reach (hbudget : ∑ j : Fin jobs.length, ((jobs.get j).chunkRetries.toNat - 1) ≤ budget)
    (hs : (chunkFetches jobs budget).Reach Prompt s) :
    ∀ i, ∀ ev ∈ s.trace i, Granted ev.1 ev.2 := by
  induction hs with
  | init => exact fun _ _ hev => absurd hev List.not_mem_nil
  | @step s l s' hs hok hstep ih =>
    cases l with
    | lose => exact hok.elim
    | act j ev =>
      obtain ⟨⟨k, hk⟩, htrace⟩ := Crew.perform_of_act hstep
      intro i ev' hev'
      rw [htrace] at hev'
      by_cases hij : i = j
      · subst hij
        rw [Function.update_self] at hev'
        rcases List.mem_append.mp hev' with hev' | hev'
        · exact ih i ev' hev'
        · obtain rfl := List.mem_singleton.mp hev'
          obtain ⟨e, x⟩ := ev'
          rintro rfl
          cases x with
          | ok _ => rfl
          | error exc => exact absurd (hok rfl rfl) (left_pos hbudget hs hk).ne'
      · rw [Function.update_of_ne hij] at hev'
        exact ih i ev' hev'

theorem unstarved_of_le (hbudget : ∑ j : Fin jobs.length, ((jobs.get j).chunkRetries.toNat - 1) ≤ budget)
    (hs : (chunkFetches jobs budget).Reach Prompt s) (i : Fin jobs.length) : Unstarved s i := by
  constructor
  · rintro ⟨⟨k, hk⟩, hnone⟩
    exact (left_pos hbudget hs hk).ne' hnone
  · intro exc hexc hev
    have hsteps := (Crew.conserved_of_reachable hs.reachable).steps i
    rw [hexc] at hsteps
    exact gets_of_failure hsteps fun ev h => ⟨hev ev h, granted_of_reach hbudget hs i ev h⟩

theorem reach_of_draws {numChunks n : Nat} {q : Fetch (Except PyExc ChunkResult)}
    (hs : (chunkFetches jobs budget).Reach (fun s l => Prompt s l ∧ InTurn numChunks s l) s)
    (hdraws : Draws (s.rest i) n q) (hn : n ≤ s.left)
    (hturn : i < numChunks → ∀ j < i, ∃ out, s.rest j = .pure out) :
    ∃ s', (chunkFetches jobs budget).Reach (fun s l => Prompt s l ∧ InTurn numChunks s l) s' ∧
      s'.rest i = q ∧ (∀ j, j ≠ i → s'.rest j = s.rest j) ∧ s'.left + n = s.left := by
  obtain ⟨tr, hsteps, rfl, hgranted⟩ := hdraws
  refine Crew.reach_alone hs hsteps hn fun t ht ev hev => ⟨?_, ?_⟩
  · intro hask hnone
    exact absurd ((hgranted ev hev hask).symm.trans hnone) Nat.one_ne_zero
  · intro hi j hj
    rw [ht j hj.ne]
    exact hturn hi j hj

structure Turns (m c k : Nat) (s : ChunkCrew jobs) : Prop where
  reach : (chunkFetches jobs ((m + 1) * c)).Reach (fun s l => Prompt s l ∧ InTurn (m + 1) s l) s
  left : s.left = (m - k) * c
  done : ∀ j : Fin jobs.length, j < k → ∃ out, s.rest j = .pure out ∧
    (0 ≤ (jobs.get j).expectedSize → ∃ res, out = .ok res)
  todo : ∀ j : Fin jobs.length, k ≤ j → j < m + 1 → s.rest j = fetchChunk (jobs.get j)

variable {m k : Nat} {r : Int}

theorem Turns.reach_of_draws {n : Nat} {q : Fetch (Except PyExc ChunkResult)}
    (h : Turns m (r.toNat - 1) k s) (hi : i < m + 1 → i.val = k) (hdraws : Draws (s.rest i) n q)
    (hn : n ≤ s.left) :
    ∃ s', (chunkFetches jobs ((m + 1) * (r.toNat - 1))).Reach
        (fun s l => Prompt s l ∧ InTurn (m + 1) s l) s' ∧
      s'.rest i = q ∧ (∀ j, j ≠ i → s'.rest j = s.rest j) ∧ s'.left + n = s.left := by
  refine ProxySplit.reach_of_draws h.reach hdraws hn fun hlt j hj => ?_
  obtain ⟨out, hout, -⟩ := h.done j (hi hlt ▸ hj)
  exact ⟨out, hout⟩

theorem turns_zero (hlen : jobs.length = m + 2) (hbudget : ∀ job ∈ jobs, job.retryBudget = true)
    (hretries : ∀ job ∈ jobs, job.chunkRetries = r) (hr : 1 ≤ r) :
    ∃ s : ChunkCrew jobs, Turns m (r.toNat - 1) 0 s := by
  let i : Fin jobs.length := ⟨m + 1, by omega⟩
  have hmem : jobs.get i ∈ jobs := List.get_mem _ _
  obtain ⟨out, hdraws, -⟩ := draws_fetchChunk (hbudget _ hmem) (hretries _ hmem ▸ hr)
  rw [hretries _ hmem] at hdraws
  have hinit : (chunkFetches jobs ((m + 1) * (r.toNat - 1))).Reach
      (fun s l => Prompt s l ∧ InTurn (m + 1) s l) _ := .init
  obtain ⟨s, hs, -, hrest, hleft⟩ := reach_of_draws hinit
    hdraws (Nat.le_mul_of_pos_left _ m.succ_pos) fun hlt => absurd hlt (lt_irrefl _)
  refine ⟨s, hs, ?_, fun j hj => absurd hj (Nat.not_lt_zero _), fun j _ hj => hrest j ?_⟩
  · change s.left + _ = (m + 1) * _ at hleft
    rw [Nat.succ_mul] at hleft
    exact Nat.add_right_cancel hleft
  · exact fun heq => absurd (heq ▸ hj) (lt_irrefl _)

theorem Turns.succ (h : Turns m (r.toNat - 1) k s) (hlen : jobs.length = m + 2)
    (hbudget : ∀ job ∈ jobs, job.retryBudget = true)
    (hretries : ∀ job ∈ jobs, job.chunkRetries = r) (hr : 1 ≤ r) (hk : k < m) :
    ∃ s : ChunkCrew jobs, Turns m (r.toNat - 1) (k + 1) s := by
  let i : Fin jobs.length := ⟨k, by omega⟩
  have hmem : jobs.get i ∈ jobs := List.get_mem _ _
  obtain ⟨out, hdraws, hsize⟩ := draws_fetchChunk (hbudget _ hmem) (hretries _ hmem ▸ hr)
  rw [hretries _ hmem, ← h.todo i le_rfl (Nat.lt_succ_of_lt hk)] at hdraws
  have hleft : (m - k) * (r.toNat - 1) = (m - (k + 1)) * (r.toNat - 1) + (r.toNat - 1) := by
    rw [← Nat.succ_mul]
    congr 1
    omega
  obtain ⟨s', hs', hout, hrest, hleft'⟩ := h.reach_of_draws (fun _ => rfl) hdraws
    (by rw [h.left, hleft]; exact Nat.le_add_left _ _)
  refine ⟨s', hs', ?_, ?_, ?_⟩
  · rw [h.left, hleft] at hleft'
    exact Nat.add_right_cancel hleft'
  · intro j hj
    by_cases heq : j = i
    · subst heq
      exact ⟨out, hout, hsize⟩
    · rw [hrest j heq]
      exact h.done j (Nat.lt_of_le_of_ne (Nat.le_of_lt_succ hj) fun hv => heq (Fin.ext hv))
  · intro j hle hlt
    rw [hrest j fun heq => absurd (congrArg Fin.val heq) (Nat.ne_of_gt hle)]
    exact h.todo j (Nat.le_of_succ_le hle) hlt

/-- With one fetch more than the budget reckons with the last chunk waits for a slot, though the fetches
go one after the other. -/
theorem exists_starves (hlen : jobs.length = m + 2) (hbudget : ∀ job ∈ jobs, job.retryBudget = true)
    (hretries : ∀ job ∈ jobs, job.chunkRetries = r) (hr : 2 ≤ r) :
    ∃ (s : ChunkCrew jobs) (i : Fin jobs.length),
      (chunkFetches jobs ((m + 1) * (r.toNat - 1))).Reach
        (fun s l => Prompt s l ∧ InTurn (m + 1) s l) s ∧ i + 1 = m + 1 ∧ Starves s i ∧
      ∀ j < i, 0 ≤ (jobs.get j).expectedSize → ∃ res, s.rest j = .pure (.ok res) := by
  have hturns : ∀ k ≤ m, ∃ s : ChunkCrew jobs, Turns m (r.toNat - 1) k s := by
    intro k hk
    induction k with
    | zero => exact turns_zero hlen hbudget hretries (by omega)
    | succ k ih =>
      obtain ⟨s, hs⟩ := ih (Nat.le_of_succ_le hk)
      exact hs.succ hlen hbudget hretries (by omega) hk
  obtain ⟨s, hs⟩ := hturns m le_rfl
  let i : Fin jobs.length := ⟨m, by omega⟩
  have hmem : jobs.get i ∈ jobs := List.get_mem _ _
  obtain ⟨k, hask⟩ := draws_ask (hbudget _ hmem) (hretries _ hmem ▸ hr)
  rw [← hs.todo i le_rfl (Nat.lt_succ_self m)] at hask
  obtain ⟨s', hs', hk, hrest, hleft⟩ := hs.reach_of_draws (fun _ => rfl) hask (Nat.zero_le _)
  refine ⟨s', i, hs', rfl, ⟨⟨k, hk⟩, ?_⟩, fun j hj hsize => ?_⟩
  · rw [hs.left, Nat.sub_self, Nat.zero_mul] at hleft
    exact hleft
  · obtain ⟨out, hout, hok⟩ := hs.done j hj
    obtain ⟨res, rfl⟩ := hok hsize
    exact ⟨res, (hrest j hj.ne).trans hout⟩

end Fetches

namespace ChunkBatch

/-- However the fetches interleave and whatever fails, none is starved. -/
def NeverStarves (b : ChunkBatch) : Prop :=
  ∀ s, (chunkFetches b.calls b.budget).Reach Prompt s → ∀ i, Unstarved s i

/-- The fetch of the last chunk can come to wait for a slot even if each fetch only starts when the one
before it has brought its chunk. -/
def StarvesLast (b : ChunkBatch) : Prop :=
  ∃ (s : ChunkCrew b.calls) (i : Fin b.calls.length),
    (chunkFetches b.calls b.budget).Reach (fun s l => Prompt s l ∧ InTurn b.numChunks s l) s ∧
      i + 1 = b.numChunks ∧ Starves s i ∧
      ∀ j < i, 0 ≤ (b.calls.get j).expectedSize → ∃ res, s.rest j = .pure (.ok res)

variable {b : ChunkBatch} {cfg : RequestConfig}

theorem StarvesLast.not_neverStarves (h : b.StarvesLast) : ¬ b.NeverStarves := by
  obtain ⟨s, i, hs, -, hstarves, -⟩ := h
  exact fun hnever => (hnever s (hs.mono fun _ _ => And.left) i).slot hstarves

theorem Follows.neverStarves (h : b.Follows cfg) (hdefault : cfg.retryBudgetTotal ≤ 0)
    (hcond : b.race = false ∨ cfg.chunkRetries ≤ 1) : b.NeverStarves := by
  intro s hs i
  refine unstarved_of_le ?_ hs i
  have hone : ∀ j : Fin b.calls.length,
      (b.calls.get j).chunkRetries.toNat - 1 = cfg.chunkRetries.toNat - 1 := fun j => by
    rw [h.chunkRetries (b.calls.get j) (List.get_mem _ _)]
  have hsum : ∑ j : Fin b.calls.length, ((b.calls.get j).chunkRetries.toNat - 1) =
      b.calls.length * (cfg.chunkRetries.toNat - 1) := by simp only [hone]; simp
  rw [hsum]
  rcases hcond with hrace | hretries
  · have hcalls := h.calls
    rw [h.budget, if_neg (not_lt.mpr hdefault)]
    simp only [hrace, Bool.false_eq_true, if_false, Nat.add_zero] at hcalls
    exact Nat.mul_le_mul hcalls (by omega)
  · have hnone : cfg.chunkRetries.toNat - 1 = 0 := by omega
    rw [hnone, Nat.mul_zero]
    exact Nat.zero_le _

theorem Follows.starvesLast (h : b.Follows cfg) (hdefault : cfg.retryBudgetTotal ≤ 0)
    (hchunks : 1 ≤ b.numChunks) (hcalls : b.calls.length = b.numChunks + 1)
    (hretries : 2 ≤ cfg.chunkRetries) : b.StarvesLast := by
  obtain ⟨m, hm⟩ := Nat.exists_eq_add_of_le' hchunks
  have hbudget : b.budget = (m + 1) * (cfg.chunkRetries.toNat - 1) := by
    rw [h.budget, if_neg (not_lt.mpr hdefault), hm]
    congr 1
    omega
  have hstarves := exists_starves (m := m) (by omega) h.retryBudget h.chunkRetries hretries
  rw [← hbudget, ← hm] at hstarves
  obtain ⟨s, i, hs⟩ := hstarves
  exact ⟨s, i, hs⟩

end ChunkBatch

theorem length_calls_of_race {args : InnerArgs} {e : RequestEffect} {b : ChunkBatch}
    (he : StartsSplit (fun ranges _ => Indexed ranges) args e) (hb : chunkBatch e = some b)
    (hrace : b.race = true) (hchunks : 1 ≤ b.numChunks) : b.calls.length = b.numChunks + 1 := by
  cases e with
  | gather =>
    cases hb
    cases hrace
  | stream plan jobs =>
    cases hb
    obtain ⟨⟨n, ct, w, ranges, assigned, raceProxy, hindexed, rfl⟩, hjobs⟩ := he
    generalize hplan : args.plan n ct w ranges assigned raceProxy = plan at hjobs hrace hchunks
    have hranges : plan.ranges = ranges := by rw [← hplan]; rfl
    have hnum : plan.numChunks = ranges.length := by rw [← hplan]; rfl
    have hlen : jobs.length = plan.numChunks := by rw [length_of_chunkJobs hjobs, hranges, hnum]
    have hfirst : (plan.ranges.find? fun r => r.index = 0).isSome = true := by
      have hzero : 0 ∈ ranges.map ChunkRange.index := by
        rw [hindexed, List.mem_range, ← hnum]
        exact hchunks
      obtain ⟨r, hr, hindex⟩ := List.mem_map.mp hzero
      rw [hranges, List.find?_isSome]
      exact ⟨r, hr, by simpa using hindex⟩
    obtain ⟨hon, hproxy⟩ := Bool.and_eq_true_iff.mp hrace
    obtain ⟨p, hp⟩ := Option.isSome_iff_exists.mp hproxy
    obtain ⟨r, hr⟩ := Option.isSome_iff_exists.mp hfirst
    have hjob : plan.raceJob = some (plan.job r p) := by
      rw [StreamPlan.raceJob, if_pos hon, hp, Option.bind_some, hr, Option.map_some]
    rw [hjob, List.length_append, hlen]
    rfl
  | _ => cases hb

section Batches

variable {cfg : RequestConfig} {req : ClientRequest} {rid : String} {sizer : Option Int}
  {tr : RequestTrace} {rest : Request Reply} {b : ChunkBatch}

theorem follows_of_steps (h : Steps (handleRequest cfg req rid sizer) tr rest)
    (hb : b ∈ tr.filterMap fun ev => chunkBatch ev.1) : b.Follows cfg ∧
      (b.race = true → 1 ≤ b.numChunks → b.calls.length = b.numChunks + 1) := by
  have hS : ∀ url chunkSize body w, Allots (fun _ _ => True) (fun ranges _ => Indexed ranges)
      (innerArgs cfg req url rid chunkSize body) w := by
    intro url chunkSize body w ranges views hbuild _
    unfold rebalance
    split
    · refine fun sizes _ => ⟨trivial, fun rs as hsome => ?_⟩
      exact indexed_of_applyPerProxyChunkSizes (indexed_of_buildRanges hbuild) hsome
    · rintro rs as ⟨⟩
      exact indexed_of_buildRanges hbuild
  have hkeeps := (startSpec_handleRequest hS).always h fun _ _ => trivial
  obtain ⟨ev, hev, hbatch⟩ := List.mem_filterMap.mp hb
  obtain ⟨url, chunkSize, body, hsplit⟩ := of_startsChunks hkeeps hev (starts_of_chunkBatch hbatch)
  exact ⟨follows_of_startsSplit hsplit hbatch, length_calls_of_race hsplit hbatch⟩

theorem starvesLast_of_steps (h : Steps (handleRequest cfg req rid sizer) tr rest)
    (hdefault : cfg.retryBudgetTotal ≤ 0) (hb : b ∈ tr.filterMap fun ev => chunkBatch ev.1)
    (hchunks : 1 ≤ b.numChunks) (hcond : ¬ (b.race = false ∨ cfg.chunkRetries ≤ 1)) :
    b.StarvesLast := by
  obtain ⟨hfollows, hcalls⟩ := follows_of_steps h hb
  obtain ⟨hrace, hretries⟩ := not_or.mp hcond
  exact hfollows.starvesLast hdefault hchunks
    (hcalls (Bool.eq_true_of_not_eq_false hrace) hchunks) (by omega)

end Batches

/-- With the default budget no fetch of a request ever waits for a slot exactly if chunk 0 is not raced or
there are no retries.  Otherwise the last chunk may have to, even when there is one fetch at a time. -/
theorem neverStarves_iff (cfg : RequestConfig) (req : ClientRequest) (rid : String)
    (sizer : Option Int) (tr : RequestTrace) (rest : Request Reply)
    (h : Steps (handleRequest cfg req rid sizer) tr rest) (hdefault : cfg.retryBudgetTotal ≤ 0)
    (b : ChunkBatch) (hb : b ∈ tr.filterMap fun ev => chunkBatch ev.1) (hchunks : 1 ≤ b.numChunks) :
    (b.NeverStarves ↔ b.race = false ∨ cfg.chunkRetries ≤ 1) ∧
      (¬ (b.race = false ∨ cfg.chunkRetries ≤ 1) → b.StarvesLast) := by
  have hlast := starvesLast_of_steps h hdefault hb hchunks
  refine ⟨⟨fun hnever => ?_, (follows_of_steps h hb).1.neverStarves hdefault⟩, hlast⟩
  by_contra hcond
  exact (hlast hcond).not_neverStarves hnever

theorem neverStarves_download : ∃ tr reply b,
    Runs (handleRequest inTwoChunks (download []) "-" none) tr reply ∧
      (b ∈ tr.filterMap fun ev => chunkBatch ev.1) ∧ b.NeverStarves := by
  have hrun : ((handleRequest inTwoChunks (download []) "-" none).execWith
      (fileFrom ["http://10.0.0.1:8080"]
        (answering (.new 5 60 3600) []))).any (fun run =>
          (run.1.filterMap fun ev => chunkBatch ev.1).any fun b =>
            1 ≤ b.numChunks ∧ b.race = false) = true := by
    decide +kernel
  obtain ⟨tr, reply, hr, hany⟩ := exists_runs_of_any hrun
  obtain ⟨b, hb, hcheck⟩ := List.any_eq_true.mp hany
  obtain ⟨hchunks, hrace⟩ := of_decide_eq_true hcheck
  exact ⟨tr, reply, b, hr, hb, (neverStarves_iff inTwoChunks (download []) "-" none tr _ hr.steps
    (by decide) b hb hchunks).1.mpr (.inl hrace)⟩

def inRace : RequestConfig := { staticChunkSize := 4, raceFirstChunk := true }

def raceFrom : (e : RequestEffect) → Option (RequestAnswer e)
  | .stream _ _ => some ⟨fun _ => none, fun _ _ => none, .ok (), fun _ => nofun⟩
  | e => fileFrom ["http://10.0.0.1:8080", "http://10.0.0.2:8080"]
      (answering (.new 5 60 3600) []) e

/-- Two candidates with two attempts each share one slot. -/
theorem race_starves : ¬ ∀ (cfg : RequestConfig) (req : ClientRequest) (rid : String)
    (sizer : Option Int) (tr : RequestTrace) (rest : Request Reply),
    Steps (handleRequest cfg req rid sizer) tr rest → cfg.retryBudgetTotal = 0 →
      1 ≤ cfg.chunkRetries → ∀ b ∈ tr.filterMap fun ev => chunkBatch ev.1, 1 ≤ b.numChunks →
        b.NeverStarves := by
  intro h
  have hrun : ((handleRequest inRace (download []) "-" none).execWith raceFrom).any (fun run =>
      (run.1.filterMap fun ev => chunkBatch ev.1).any fun b => 1 ≤ b.numChunks ∧ b.race = true) =
        true := by
    decide +kernel
  obtain ⟨tr, reply, hr, hany⟩ := exists_runs_of_any hrun
  obtain ⟨b, hb, hcheck⟩ := List.any_eq_true.mp hany
  obtain ⟨hchunks, hrace⟩ := of_decide_eq_true hcheck
  have hlast : b.StarvesLast :=
    starvesLast_of_steps hr.steps (by decide) hb hchunks (by simp [hrace, inRace])
  exact hlast.not_neverStarves (h _ _ _ _ tr _ hr.steps rfl (by decide) b hb hchunks)

end ProxySplit
