import ProxySplit.Handlers.PoolUse

namespace ProxySplit

open Lib Prog

section Dispatch

variable {pool : Option String} {s : PoolUse} {args : InnerArgs}

/-- What `handle_inner` may return with the proxies chosen by then. -/
def Ready (pool : Option String) (s : PoolUse) : Except PyExc Outcome → Prop
  | .error _ => True
  | .ok (.response r) => s.chosen = ∅ → 400 ≤ r.status
  | .ok (.stream plan) => s.chosen.Nonempty ∧ plan.pool = pool ∧
      (∀ p ∈ plan.assigned, p ∈ s.chosen) ∧ ∀ p, truthy plan.raceProxy = some p → p ∈ s.chosen

theorem poolSpec_fetchFallback (hpool : args.pool = pool) {requestProxy : Option Url}
    {ct : String} (hs : s.kept = true) (hproxy : ∀ p, truthy requestProxy = some p → p ∈ s.chosen) :
    PoolSpec pool (fetchFallback args requestProxy ct) (Ready pool) s := by
  unfold fetchFallback
  refine .bind (poolSpec_fetchWhole hpool rfl hs hproxy) ?_
  intro s' r hs' hchosen
  split
  · exact .pure hs' trivial
  · exact .pure hs' fun hnone => absurd hnone hchosen.ne_empty

theorem poolSpec_prewarm (hs : s.kept = true) : PoolSpec pool (prewarm args) (fun s' _ => s' = s) s := by
  unfold prewarm
  split
  · exact .pure hs rfl
  · refine .bind_skip hs (fun _ => trivial) (fun _ _ => rfl) fun view => ?_
    split
    · exact .skip hs (fun _ => trivial) fun _ _ => rfl
    · exact .pure hs rfl

theorem poolSpec_noProxies (hs : s.kept = true) : PoolSpec pool (noProxies args) (Ready pool) s := by
  unfold noProxies
  refine .bind_skip hs (fun _ => trivial) (fun _ _ => rfl) fun view => ?_
  exact .pure hs fun _ => show 400 ≤ 503 by decide

theorem poolSpec_pickRace (hpool : args.pool = pool) {assigned : List Url} {n : Nat}
    (hs : s.kept = true) : PoolSpec pool (pickRace args assigned n) (fun s' raceProxy =>
      s.chosen ⊆ s'.chosen ∧ ∀ p, truthy raceProxy = some p → p ∈ s'.chosen) s := by
  unfold pickRace
  split
  · rw [hpool]
    apply PoolSpec.within rfl
    apply fetchSpec_pickProxy
    intro pick
    refine ⟨hs, Finset.subset_union_left, fun p hp => ?_⟩
    obtain ⟨rfl, -⟩ := truthy_eq_some hp
    exact PoolUse.mem_pick
  · exact .pure hs ⟨Finset.Subset.refl _, nofun⟩

theorem mem_chosen_of_chunkJobs {job : ChunkRange → Url → ChunkJob} {ranges : List ChunkRange}
    {assigned : List Url} {jobs : List ChunkJob} (h : chunkJobs job ranges assigned = .ok jobs)
    (hjob : ∀ r p, (job r p).pool = pool ∧ (job r p).proxyUrl = p)
    (hassigned : ∀ p ∈ assigned, p ∈ s.chosen) :
    ∀ j ∈ jobs, j.pool = pool ∧ j.proxyUrl ∈ s.chosen := by
  intro j hj
  obtain ⟨r, p, hp, rfl⟩ := mem_of_chunkJobs h hj
  exact ⟨(hjob r p).1, by rw [(hjob r p).2]; exact hassigned p hp⟩

theorem ready_assemble {contentLength : Int} {ct : String} {w : Window} {ranges : List ChunkRange}
    {results : List (Except PyExc ChunkResult)} (h : s.chosen.Nonempty) :
    Ready pool s (assemble args contentLength ct w ranges results) := by
  cases hout : assemble args contentLength ct w ranges results with
  | error exc => trivial
  | ok outcome =>
    cases outcome with
    | response r => exact fun hnone => absurd hnone h.ne_empty
    | stream plan => exact absurd hout (assemble_ne_stream _ _ _ _ _ _ _)

theorem poolSpec_gatherChunks (hpool : args.pool = pool) {contentLength : Int} {ct : String}
    {w : Window} {ranges : List ChunkRange} {assigned : List Url} (hs : s.kept = true)
    (hchosen : s.chosen.Nonempty) (hassigned : ∀ p ∈ assigned, p ∈ s.chosen) :
    PoolSpec pool (gatherChunks args contentLength ct w ranges assigned) (Ready pool) s := by
  unfold gatherChunks
  split
  · exact .pure hs trivial
  · next jobs hjobs =>
    have hmem := mem_chosen_of_chunkJobs hjobs (fun r p => ⟨hpool, rfl⟩) hassigned
    have hkeep : ∀ run : GatherRun args.maxWorkers (args.budget ranges.length) jobs,
        SendsProxied (.gather args.maxWorkers (args.budget ranges.length) jobs) run →
        requestPoolUse pool s (.gather args.maxWorkers (args.budget ranges.length) jobs) run = s := by
      intro run hsends
      have hkept : tasksKeep pool s run.tasks = true := tasksKeep_fetchChunk hs hmem hsends
      simp only [requestPoolUse, hkept, Bool.and_true]
    refine .bind_skip hs (fun _ => trivial) hkeep fun run => ?_
    split
    · exact .pure hs trivial
    · exact .pure hs (ready_assemble hchosen)

theorem poolSpec_fetchChunks (hpool : args.pool = pool) {contentLength : Int} {ct : String}
    {w : Window} {ranges : List ChunkRange} {assigned : List Url} (hs : s.kept = true)
    (hchosen : s.chosen.Nonempty) (hassigned : ∀ p ∈ assigned, p ∈ s.chosen) :
    PoolSpec pool (fetchChunks args contentLength ct w ranges assigned) (Ready pool) s := by
  unfold fetchChunks
  refine .bind (poolSpec_pickRace hpool hs) ?_
  rintro s' raceProxy hs' ⟨hsub, hrace⟩
  have hassigned' : ∀ p ∈ assigned, p ∈ s'.chosen := fun p hp => hsub (hassigned p hp)
  split
  · exact .pure hs' ⟨hchosen.mono hsub, hpool, hassigned', hrace⟩
  · exact poolSpec_gatherChunks hpool hs' (hchosen.mono hsub) hassigned'

theorem poolSpec_distribute (hpool : args.pool = pool) (hpin : truthy args.pin = none)
    (hs : s.kept = true) {n : Nat} : PoolSpec pool
      (perform (.distribute n args.pool args.pin args.weighted args.excludeWindow))
      (fun s' views => ∀ p ∈ PoolView.distributeProxies views n args.pool args.pin args.weighted
        args.excludeWindow, p ∈ s'.chosen) s := by
  subst hpool
  refine .perform (fun _ => trivial) fun views _ => ⟨hs, fun p hp => ?_⟩
  have hlisted := PoolView.mem_available_of_mem_distributeProxies hpin hp
  exact Finset.mem_filter.mpr ⟨List.mem_toFinset.mpr hp, hlisted⟩

theorem poolSpec_rebalance {w : Window} {ranges : List ChunkRange} {assigned : List Url}
    (hs : s.kept = true) : PoolSpec pool (rebalance args w ranges assigned) (fun s' out => s' = s ∧
      ∀ rs as, out = some (rs, as) → ∀ p ∈ as, p ∈ assigned) s := by
  unfold rebalance
  split
  · refine .bind_skip hs (fun _ => trivial) (fun _ _ => rfl) fun sizes => ?_
    exact .pure hs ⟨rfl, fun rs as => mem_of_applyPerProxyChunkSizes⟩
  · refine .pure hs ⟨rfl, fun rs as h => ?_⟩
    cases h
    exact fun _ hp => hp

theorem poolSpec_splitWindow (hpool : args.pool = pool) (hpin : truthy args.pin = none)
    {contentLength : Int} {ct : String} {w : Window} (hs : s.kept = true) :
    PoolSpec pool (splitWindow args contentLength ct w) (Ready pool) s := by
  unfold splitWindow
  refine .bind (poolSpec_prewarm hs) ?_
  rintro s' _ hs' rfl
  split
  · exact fun x => nomatch x
  · next ranges _ =>
    refine .bind (poolSpec_distribute hpool hpin hs) ?_
    intro s₁ views hs₁ hassigned
    dsimp only
    split
    · exact poolSpec_noProxies hs₁
    · next hne =>
      have hchosen : s₁.chosen.Nonempty := by
        obtain ⟨p, rest, hp⟩ := List.exists_cons_of_ne_nil hne
        exact ⟨p, hassigned p (by rw [hp]; exact .head _)⟩
      refine .bind (poolSpec_rebalance hs₁) ?_
      rintro s₂ out hs₂ ⟨rfl, hout⟩
      split
      · exact fun x => nomatch x
      · next rs as =>
        exact poolSpec_fetchChunks hpool hs₂ hchosen fun p hp => hassigned p (hout rs as rfl p hp)

theorem poolSpec_dispatch (hpool : args.pool = pool) (hpin : truthy args.pin = none)
    {requestProxy : Option Url} {info : HeadInfo} (hs : s.kept = true)
    (hproxy : ∀ p, truthy requestProxy = some p → p ∈ s.chosen) :
    PoolSpec pool (dispatch args requestProxy info) (Ready pool) s := by
  unfold dispatch
  split
  · exact .pure hs trivial
  · exact poolSpec_fetchFallback hpool hs hproxy
  · split
    · exact poolSpec_fetchFallback hpool hs hproxy
    · split
      · exact .pure hs trivial
      · exact poolSpec_splitWindow hpool hpin hs

theorem poolSpec_pickRequestProxy (hpool : args.pool = pool) (hpin : truthy args.pin = none)
    (hs : s.kept = true) : PoolSpec pool (pickRequestProxy args) (fun s' requestProxy =>
      ∀ p, truthy requestProxy = some p → p ∈ s'.chosen) s := by
  simp only [pickRequestProxy, hpin]
  split
  · exact .pure hs nofun
  · rw [hpool]
    apply PoolSpec.within rfl
    apply fetchSpec_pickProxy
    intro pick
    refine ⟨hs, fun p hp => ?_⟩
    obtain ⟨rfl, -⟩ := truthy_eq_some hp
    exact PoolUse.mem_pick

theorem poolSpec_handleInner (hpool : args.pool = pool) (hpin : truthy args.pin = none)
    (hs : s.kept = true) : PoolSpec pool (handleInner args) (Ready pool) s := by
  unfold handleInner
  refine .bind (poolSpec_pickRequestProxy hpool hpin hs) ?_
  intro s₁ requestProxy hs₁ hproxy
  refine .bind (poolSpec_resolveContentInfo hpool hs₁) ?_
  intro s₂ info hs₂ hsub
  split
  · exact .pure hs₂ trivial
  · exact poolSpec_dispatch hpool hpin hs₂ fun p hp => hsub (hproxy p hp)

end Dispatch

section Handler

variable {pool : Option String} {s : PoolUse} {cfg : RequestConfig} {req : ClientRequest} {url : Url}
  {rid : String}

theorem poolSpec_recover {exc : PyExc} (hs : s.kept = true) :
    PoolSpec pool (recover cfg rid exc) (fun _ reply => reply.isError = true) s := by
  unfold recover
  split
  · exact .pure hs rfl
  · split
    · refine .bind_skip hs (fun _ => trivial) (fun _ _ => rfl) fun passed => ?_
      split
      · exact .pure hs rfl
      · exact .pure hs rfl
    · exact .pure hs rfl
  · exact .pure hs rfl

theorem poolSpec_storeResponse {r : Response} (hs : s.kept = true) :
    PoolSpec pool (storeResponse req url r) (fun s' _ => s' = s) s := by
  unfold storeResponse
  split
  · refine .bind_skip hs (fun _ => trivial) (fun _ _ => rfl) fun _ => ?_
    exact .skip hs (fun _ => trivial) fun _ _ => rfl
  · exact .pure hs rfl

theorem poolSpec_sendStream {plan : StreamPlan} (hs : s.kept = true)
    (hready : Ready pool s (.ok (.stream plan))) :
    PoolSpec pool (sendStream plan) (fun s' _ => s' = s) s := by
  obtain ⟨-, hpool, hassigned, hrace⟩ := hready
  unfold sendStream
  split
  · exact .pure hs rfl
  · next jobs hjobs =>
    have hmem := mem_chosen_of_chunkJobs hjobs (fun r p => ⟨hpool, rfl⟩) hassigned
    have hkeep : ∀ run, SendsProxied (.stream plan jobs) run →
        requestPoolUse pool s (.stream plan jobs) run = s := by
      intro run hsends
      have htasks : tasksKeep pool s run.tasks = true :=
        tasksKeep_fetchChunk hs hmem fun r hr => hsends r (List.mem_append_left _ hr)
      have hraces : run.raceKeeps pool s = true :=
        raceKeeps_of_mem hs hpool hrace fun r hr => hsends r (List.mem_append_right _ hr)
      simp only [requestPoolUse, htasks, hraces, Bool.and_true]
    exact .bind_skip hs (fun _ => trivial) hkeep fun run => .pure hs rfl

theorem poolSpec_finish {outcome : Outcome} (hs : s.kept = true) (hready : Ready pool s (.ok outcome)) :
    PoolSpec pool (finish req url rid outcome) (fun s' r =>
      s'.chosen = ∅ → ∀ reply, r = .ok reply → reply.isError = true) s := by
  unfold finish
  split
  · next plan =>
    refine .bind (poolSpec_sendStream hs hready) ?_
    rintro s' r hs' rfl
    have hchosen : s'.chosen ≠ ∅ := hready.1.ne_empty
    split
    · exact .pure hs' fun hnone => absurd hnone hchosen
    · exact .pure hs' fun hnone => absurd hnone hchosen
  · next r =>
    refine .bind (poolSpec_storeResponse hs) ?_
    rintro s' _ hs' rfl
    refine .pure hs' fun hnone reply hreply => ?_
    cases hreply
    exact decide_eq_true (hready hnone)

theorem poolSpec_respond {result : Except PyExc Outcome} (hs : s.kept = true)
    (hready : Ready pool s result) :
    PoolSpec pool (respond cfg req url rid result)
      (fun s' reply => s'.chosen = ∅ → reply.isError = true) s := by
  unfold respond
  split
  · exact .mono (fun _ _ h _ => h) (poolSpec_recover hs)
  · refine .bind (poolSpec_finish hs hready) ?_
    intro s' r hs' hreply
    split
    · exact .pure hs' fun hnone => hreply hnone _ rfl
    · exact .pure hs' fun _ => rfl
    · exact .mono (fun _ _ h _ => h) (poolSpec_recover hs')

theorem poolSpec_serve (hpool : req.pool = pool) (hpin : truthy req.pin = none) {chunkSize : Int}
    {body : Option Bytes} (hs : s.kept = true) :
    PoolSpec pool (serve cfg req url rid chunkSize body)
      (fun s' reply => s'.chosen = ∅ → reply.isError = true) s := by
  unfold serve
  refine .bind (poolSpec_handleInner hpool hpin hs) ?_
  exact fun s' result hs' hready => poolSpec_respond hs' hready

theorem poolSpec_revalidationGet {weighted : Bool} {headers : Headers} (hs : s.kept = true) :
    PoolSpec pool (within .revalidate (revalidationGet pool weighted url headers))
      (fun s' _ => s'.chosen ≠ ∅) s := by
  apply PoolSpec.of_partUse
  rw [revalidationGet, fetchSpec_bind]
  apply fetchSpec_firstPick rfl
  · exact fun r _ => ⟨trivial, .inl (lost_direct rfl r)⟩
  · intro p r hr
    have hsend : (s.pick (some p)).send ⟨some p, "GET", url, headers, none⟩ = s.pick (some p) :=
      PoolUse.send_eq rfl PoolUse.mem_pick (hr _ (.head _))
    change True ∧ (Lost ((s.pick (some p)).send _, true) ∨ ((s.pick (some p)).send _).kept = true ∧ _)
    rw [hsend]
    exact ⟨trivial, .inr ⟨hs, rfl, Finset.ne_empty_of_mem PoolUse.mem_pick⟩⟩

def Settled (s : PoolUse) : Prop := s.asked = true → s.chosen ≠ ∅

theorem poolSpec_serveL1 (hpool : req.pool = pool) {cached : Cached} (hs : s.kept = true)
    (hasked : s.asked = false) :
    PoolSpec pool (serveL1 cfg req url rid cached) (fun s' _ => Settled s') s := by
  have hstart : Settled s := fun h => absurd h (by simp [hasked])
  unfold serveL1
  refine .bind_skip hs (fun _ => trivial) (fun _ _ => rfl) fun validators => ?_
  dsimp only
  split
  · exact .pure hs hstart
  · rw [hpool]
    refine .bind (poolSpec_revalidationGet hs) ?_
    intro s₁ r hs₁ hchosen
    split
    · split
      · exact .pure hs₁ fun _ => hchosen
      · exact .pure hs₁ fun _ => hchosen
    · split
      · exact .pure hs₁ fun _ => hchosen
      · split
        · refine .bind_skip hs₁ (fun _ => trivial) (fun _ _ => rfl) fun _ => ?_
          exact .pure hs₁ fun _ => hchosen
        · exact .pure hs₁ fun _ => hchosen

theorem poolSpec_serveL2 (hs : s.kept = true) :
    PoolSpec pool (serveL2 url rid) (fun s' _ => s' = s) s := by
  unfold serveL2
  refine .bind_skip hs (fun _ => trivial) (fun _ _ => rfl) fun hit => ?_
  split
  · exact .pure hs rfl
  · exact .pure hs rfl
  · exact .bind_skip hs (fun _ => trivial) (fun _ _ => rfl) fun _ => .pure hs rfl

theorem poolSpec_serveCached (hpool : req.pool = pool) (hs : s.kept = true) (hasked : s.asked = false) :
    PoolSpec pool (serveCached cfg req url rid) (fun s' _ => Settled s') s := by
  have hstart : Settled s := fun h => absurd h (by simp [hasked])
  unfold serveCached
  split
  · refine .bind_skip hs (fun _ => trivial) (fun _ _ => rfl) fun hit => ?_
    split
    · refine .bind (poolSpec_serveL1 hpool hs hasked) ?_
      intro s₁ r hs₁ hsettled
      split
      · exact .pure hs₁ hsettled
      · exact .pure hs₁ hsettled
    · refine .mono ?_ (poolSpec_serveL2 hs)
      rintro s₁ r rfl
      exact hstart
  · exact .pure hs hstart

theorem poolSpec_readBody (hs : s.kept = true) :
    PoolSpec pool (readBody req) (fun s' _ => s' = s) s := by
  unfold readBody
  split
  · refine .bind_skip hs (fun _ => trivial) (fun _ _ => rfl) fun r => ?_
    split
    · exact .pure hs rfl
    · exact .pure hs rfl
  · exact .pure hs rfl

theorem poolSpec_handleRequest (hpin : truthy req.pin = none) {sizer : Option Int} :
    PoolSpec req.pool (handleRequest cfg req rid sizer)
      (fun s reply => s.asked = true → s.chosen = ∅ → reply.isError = true) .start := by
  unfold handleRequest
  split
  · exact .pure rfl nofun
  · split
    · unfold handleUrl
      refine .bind (poolSpec_serveCached rfl rfl rfl) ?_
      intro s r hs hsettled
      split
      · exact .pure hs fun _ _ => rfl
      · exact .pure hs fun hasked hnone => absurd hnone (hsettled hasked)
      · refine .bind (poolSpec_readBody hs) ?_
        rintro s' r hs' rfl
        split
        · exact .pure hs' fun _ _ => rfl
        · exact .mono (fun _ _ h _ => h) (poolSpec_serve rfl hpin hs')
    · exact .pure rfl nofun

end Handler

/-- The pool is kept exactly by the runs in which `fetch_whole` and the revalidation find a proxy when
they pick their first one, and in which no proxy that a request uses has a scheme that is not sent
through. -/
theorem poolKept_iff (cfg : RequestConfig) (req : ClientRequest) (rid : String)
    (sizer : Option Int) (hpin : truthy req.pin = none) (tr : RequestTrace) (reply : Reply)
    (hr : Runs (handleRequest cfg req rid sizer) tr reply) :
    PoolKept req.pool tr reply ↔ ∀ ev ∈ tr, FindsProxy ev.1 ev.2 ∧ SendsProxied ev.1 ev.2 := by
  have hspec : (∀ ev ∈ tr, SendsProxied ev.1 ev.2) →
      (PoolKept req.pool tr reply ↔ ∀ ev ∈ tr, FindsProxy ev.1 ev.2) := by
    intro hsends
    have hend := (poolSpec_handleRequest hpin).run hr hsends
    rw [Monitor.after_prod] at hend
    rcases hend with ⟨hkept, hfinds⟩ | ⟨hs, hfinds, herror⟩
    · constructor
      · intro h
        exact absurd (hkept.symm.trans h.1) Bool.false_ne_true
      · intro h
        exact absurd (hfinds.symm.trans (finds_after.mpr ⟨rfl, h⟩)) Bool.false_ne_true
    · exact iff_of_true ⟨hs, herror⟩ (finds_after.mp hfinds).2
  constructor
  · intro h
    have hsends := (sendsProxied_of_kept h.1).2
    exact fun ev hev => ⟨(hspec hsends).mp h ev hev, hsends ev hev⟩
  · intro h
    exact (hspec fun ev hev => (h ev hev).2).mpr fun ev hev => (h ev hev).1

def page : ClientRequest where
  method := "GET"
  url := some "http://origin.example/page"
  noCache := some "1"
  pool := none
  headers := []
  body := []

def pageFrom (proxies : List Url) : (e : RequestEffect) → Option (RequestAnswer e)
  | .fetch .whole (.pickProxy ..) => some (PoolView.viewOf proxies)
  | .fetch _ (.pickProxy ..) => some (PoolView.viewOf [])
  | .fetch _ (.allowRequest _) => some ⟨.new 5 60 3600, 0, .new 5 60 3600, 0⟩
  | .fetch _ (.http _) => some (.ok ⟨200, [], [104, 105], 0⟩)
  | .fetch _ (.recordSuccess ..) => some ()
  | .cachePut .. => some ()
  | .diskPut .. => some ()
  | _ => none

theorem poolKept_late_proxy : ∃ tr reply, Runs (handleRequest {} page "-" none) tr reply ∧
    PoolKept page.pool tr reply := by
  have hrun : ((handleRequest {} page "-" none).execWith (pageFrom ["http://10.0.0.1:8080"])).any
      (fun run => run.1.all fun ev => FindsProxy ev.1 ev.2 ∧ SendsProxied ev.1 ev.2) = true := by
    decide +kernel
  obtain ⟨tr, reply, hr, hall⟩ := exists_runs_of_any hrun
  refine ⟨tr, reply, hr, (poolKept_iff {} page "-" none rfl tr reply hr).mpr fun ev hev => ?_⟩
  exact of_decide_eq_true (List.all_eq_true.mp hall ev hev)

theorem page_sent_directly : ∃ tr reply, Runs (handleRequest {} page "-" none) tr reply ∧
    ¬ PoolKept page.pool tr reply := by
  have hrun : ((handleRequest {} page "-" none).execWith (pageFrom [])).any
      (fun run => ¬ PoolKept page.pool run.1 run.2) = true := by decide +kernel
  obtain ⟨tr, reply, hr, hnot⟩ := exists_runs_of_any hrun
  exact ⟨tr, reply, hr, of_decide_eq_true hnot⟩

/-- A registry can also list what no scheme is sent through. -/
example : ((handleRequest {} page "-" none).execWith (pageFrom ["10.0.0.1"])).any
    (fun run => (run.1.all fun ev => FindsProxy ev.1 ev.2) ∧ ¬ PoolKept page.pool run.1 run.2) = true := by
  decide +kernel

end ProxySplit
