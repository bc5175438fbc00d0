import ProxySplit.Handlers.Preparation
import ProxySplit.Handlers.Upstream
import ProxySplit.Fetchers.BreakerUse

namespace ProxySplit

open Lib Prog

/-- The body that `handle_request` hands on. -/
def ClientRequest.passedBody (req : ClientRequest) : Option Bytes :=
  if req.readsBody then some req.body else none

def behindProbe (cfg : RequestConfig) (req : ClientRequest) (url : Url) (rid : String)
    (chunkSize : Int) (requestProxy : Option Url) (info : HeadInfo) : Request Reply := do
  let result ← dispatch (innerArgs cfg req url rid chunkSize req.passedBody) requestProxy info
  respond cfg req url rid result

theorem serve_passedBody (cfg : RequestConfig) (req : ClientRequest) (url : Url) (rid : String)
    (chunkSize : Int) :
    serve cfg req url rid chunkSize req.passedBody = (do
      let args := innerArgs cfg req url rid chunkSize req.passedBody
      let requestProxy ← pickRequestProxy args
      match ← resolveContentInfo args.probe with
      | .error exc => respond cfg req url rid (.error exc)
      | .ok info => behindProbe cfg req url rid chunkSize requestProxy info) := by
  simp only [serve, handleInner, bind_assoc]
  congr 1
  funext requestProxy
  congr 1
  funext probe
  cases probe with
  | error exc => rfl
  | ok info => rfl

def Carries (req : ClientRequest) (r : HttpRequest) : Prop :=
  r.method = req.method ∧ r.body.getD [] = req.body

/-- However far a request gets behind a probe with this outcome, all it sends upstream carries the
method and the body of the client. -/
def MethodBodyKept (cfg : RequestConfig) (req : ClientRequest) (url : Url) (rid : String)
    (chunkSize : Int) (info : HeadInfo) : Prop :=
  ∀ requestProxy tr rest,
    Steps (behindProbe cfg req url rid chunkSize requestProxy info) tr rest →
      ∀ ev ∈ tr, ∀ r ∈ upstream ev.1 ev.2, Carries req r

namespace InnerArgs

/-- The request is sent on as a whole. -/
def FallsBack (args : InnerArgs) (info : HeadInfo) : Prop :=
  isExcluded args.exclusion args.url info.contentType = .ok true ∨
    isExcluded args.exclusion args.url info.contentType = .ok false ∧ info.splittable = none

def StartsChunks (args : InnerArgs) : Prop :=
  0 < args.chunkSize ∧ 0 < args.chunkRetries ∧
    if args.useStreaming then
      args.raceFirstChunk = true ∨ 0 < args.maxWorkers ∧ 0 < args.prefetchAhead
    else 0 < args.maxWorkers

/-- The request is answered from ranged GETs. -/
def Splits (args : InnerArgs) (info : HeadInfo) : Prop :=
  isExcluded args.exclusion args.url info.contentType = .ok false ∧
    (∃ contentLength w, info.splittable = some contentLength ∧
      selectWindow contentLength args.clientRange = .ok w ∧ w.start ≤ w.stop) ∧
    args.StartsChunks

end InnerArgs

abbrev Sends (P : HttpRequest → Prop) {α : Type} (p : Request α) (Q : α → Prop) : Prop :=
  Keeps (fun _ _ => True) (fun e x => ∀ r ∈ upstream e x, P r) p Q

abbrev FetchSends (P : HttpRequest → Prop) {α : Type} (p : Fetch α) (Q : α → Prop) : Prop :=
  Keeps (fun _ _ => True) (fun e _ => ∀ r, requestOf e = some r → P r) p Q

section Fetchers

variable {P : HttpRequest → Prop}

theorem sends_within {α : Type} {part : Part} {p : Fetch α} {Q : α → Prop}
    (h : FetchSends P p Q) : Sends P (within part p) Q := by
  refine keeps_within.mpr (h.mono (fun _ _ h => h) (fun e x _ hgood r hr => ?_) (fun _ h => h))
  exact hgood r (Option.mem_toList.mp hr)

theorem fetchSends_checkBreakerWhole {job : WholeJob} {current : Option Url}
    {Q : Option Url → Prop} (h : ∀ cur, Q cur) : FetchSends P (checkBreakerWhole job current) Q := by
  unfold checkBreakerWhole
  split
  · exact h _
  · simp only [keeps_bind, keeps_call, pickOther, pickProxy]
    intro v _
    refine ⟨by rintro _ ⟨⟩, ?_⟩
    split
    · exact h _
    · simp only [keeps_bind, keeps_call]
      exact fun _ _ => ⟨by rintro _ ⟨⟩, h _⟩

theorem fetchSends_nextProxyWhole {job : WholeJob} {current : Option Url} {left : Nat}
    {Q : Option Url → Prop} (h : ∀ cur, Q cur) :
    FetchSends P (nextProxyWhole job current left) Q := by
  unfold nextProxyWhole
  split
  · simp only [keeps_bind, keeps_call, pickOther, pickProxy]
    exact fun _ _ => ⟨by rintro _ ⟨⟩, h _⟩
  · exact h _

theorem fetchSends_requestWhole {job : WholeJob} {current : Option Url}
    {Q : Except PyExc WholeResult → Prop} (hP : P (job.request current)) (h : ∀ r, Q r) :
    FetchSends P (requestWhole job current) Q := by
  simp only [requestWhole, keeps_bind, keeps_call]
  intro r _
  refine ⟨fun _ hr => Option.some.inj hr ▸ hP, ?_⟩
  split
  · exact h _
  · simp only [keeps_bind, keeps_call]
    exact fun _ _ => ⟨by rintro _ ⟨⟩, h _⟩

theorem fetchSends_fetchWhole {job : WholeJob} (hP : ∀ current, P (job.request current)) :
    FetchSends P (fetchWhole job) fun _ => True := by
  have hattempts : ∀ left current lastExc,
      FetchSends P (wholeAttempts job left current lastExc) fun _ => True := by
    intro left
    induction left with
    | zero => exact fun _ _ => trivial
    | succ left ih =>
      intro current lastExc
      simp only [wholeAttempts, keeps_bind]
      apply fetchSends_checkBreakerWhole
      intro cur
      apply fetchSends_requestWhole (hP cur)
      intro r
      split
      · trivial
      split
      · simp only [keeps_bind, keeps_call]
        refine fun _ _ => ⟨by rintro _ ⟨⟩, ?_⟩
        apply fetchSends_nextProxyWhole
        exact fun cur' => ih cur' _
      · trivial
  simp only [fetchWhole, keeps_bind, firstProxy]
  split
  · exact hattempts _ _ _
  · simp only [pickProxy, keeps_bind, keeps_call]
    exact fun _ _ => ⟨by rintro _ ⟨⟩, hattempts _ _ _⟩

end Fetchers

section Tasks

theorem Task.requests_of_nonpos {job : ChunkJob} (h : job.chunkRetries ≤ 0)
    (t : Task (fetchChunk job)) : t.requests = [] := by
  obtain ⟨tr, r, hr⟩ := t
  rw [fetchChunk, Int.toNat_of_nonpos h, fetchAttempts] at hr
  cases hr
  rfl

def answeredTask (job : ChunkJob) : Task (fetchChunk job) :=
  ⟨_, _, runs_exec (answering (.new 5 60 3600) []) (fetchChunk job)⟩

theorem answer_new {url : Url} {now later : ℚ} {b : CircuitBreaker} :
    AllowView.answer ⟨.new 5 60 3600, now, b, later⟩ url = true := by
  simp [AllowView.answer, CircuitBreaker.allowEnter, CircuitBreaker.stateFor,
    CircuitBreaker.entry, CircuitBreaker.new, BreakerEntry.fresh]

theorem mem_answeredTask {job : ChunkJob} (h : 0 < job.chunkRetries) :
    job.request job.proxyUrl ∈ (answeredTask job).requests := by
  obtain ⟨left, hleft⟩ := Nat.exists_eq_succ_of_ne_zero (n := job.chunkRetries.toNat) (by omega)
  -- no run that is answered like this one comes to its end without the request
  have hkeeps : Keeps (fun e x => x = answering (.new 5 60 3600) [] e ∧
      requestOf e ≠ some (job.request job.proxyUrl)) (fun _ _ => True) (fetchChunk job)
      (fun _ => False) := by
    simp only [fetchChunk, hleft, fetchAttempts, checkBreaker, takeRetrySlot, getRange, keeps_bind,
      keeps_call]
    rintro _ ⟨rfl, -⟩
    refine ⟨trivial, ?_⟩
    simp only [answering, answer_new, if_true, keeps_pure']
    rw [if_neg (by simp)]
    simp only [keeps_bind, keeps_call, keeps_pure']
    rintro _ ⟨rfl, -⟩
    refine ⟨trivial, ?_⟩
    simp only [keeps_bind, keeps_call]
    rintro _ ⟨rfl, hsent⟩
    exact absurd rfl hsent
  by_contra hnot
  refine (hkeeps.run (answeredTask job).runs ?_).2
  intro ev hev
  refine ⟨exec_events _ _ ev hev, ?_⟩
  intro hreq
  exact hnot (List.mem_filterMap.mpr ⟨ev, hev, hreq⟩)

end Tasks

section Quiet

variable {P : HttpRequest → Prop} {args : InnerArgs}

theorem StreamPlan.chunkRetries_of_raceJob {plan : StreamPlan} {job : ChunkJob}
    (h : plan.raceJob = some job) : job.chunkRetries = plan.chunkRetries := by
  obtain ⟨-, r, p, -, rfl⟩ := race_of_raceJob h
  rfl

/-- A stream whose chunks have no attempts, or which cannot start one, sends nothing. -/
theorem upstream_stream_eq_nil {plan : StreamPlan} {jobs : List ChunkJob}
    (h : plan.chunkRetries ≤ 0 ∨ ¬ plan.Starts) (hjobs : plan.jobs = .ok jobs)
    (run : StreamRun plan jobs) : upstream (.stream plan jobs) run = [] := by
  refine List.append_eq_nil_iff.mpr ⟨?_, ?_⟩
  · apply requestsOfAll_eq_nil
    intro i t ht
    rcases h with hretries | hstarts
    · obtain ⟨r, p, -, hjob⟩ := mem_of_chunkJobs hjobs (List.getElem_mem i.isLt)
      apply t.requests_of_nonpos
      rw [List.get_eq_getElem, hjob]
      exact hretries
    · exact absurd (run.started i (by rw [ht]; rfl)) hstarts
  · apply StreamRun.raceRequests_eq_nil
    intro job hjob t _
    rcases h with hretries | hstarts
    · exact t.requests_of_nonpos (StreamPlan.chunkRetries_of_raceJob hjob ▸ hretries)
    · exact absurd (.inl (by rw [hjob]; rfl)) hstarts

theorem upstream_gather_eq_nil {assigned : List Url} {ranges : List ChunkRange} {budget : Nat}
    {jobs : List ChunkJob} (h : args.chunkRetries ≤ 0 ∨ args.maxWorkers = 0)
    (hjobs : chunkJobs args.chunkJob ranges assigned = .ok jobs)
    (run : GatherRun args.maxWorkers budget jobs) :
    upstream (.gather args.maxWorkers budget jobs) run = [] := by
  apply requestsOfAll_eq_nil
  intro i t ht
  rcases h with hretries | hworkers
  · obtain ⟨r, p, -, hjob⟩ := mem_of_chunkJobs hjobs (List.getElem_mem i.isLt)
    apply t.requests_of_nonpos
    rw [List.get_eq_getElem, hjob]
    exact hretries
  · have hpos := run.started i (by rw [ht]; rfl)
    omega

def Quiet (result : Except PyExc Outcome) : Prop :=
  ∀ plan jobs, result = .ok (.stream plan) → plan.jobs = .ok jobs →
    ∀ run, upstream (.stream plan jobs) run = []

theorem Quiet.error (exc : PyExc) : Quiet (.error exc) := by
  intro _ _ h
  cases h

theorem Quiet.response (r : Response) : Quiet (.ok (.response r)) := by
  intro _ _ h
  cases h

theorem quiet_assemble {contentLength : Int} {ct : String} {w : Window} {ranges : List ChunkRange}
    {results : List (Except PyExc ChunkResult)} :
    Quiet (assemble args contentLength ct w ranges results) := by
  intro plan _ h
  exact absurd h (assemble_ne_stream _ _ _ _ _ _ _)

theorem sends_pickRace {assigned : List Url} {n : Nat} :
    Sends P (pickRace args assigned n) fun _ => True := by
  unfold pickRace
  split
  · refine sends_within ?_
    simp only [pickProxy, keeps_bind, keeps_call]
    exact fun _ _ => ⟨by rintro _ ⟨⟩, trivial⟩
  · trivial

theorem quiet_plan {contentLength : Int} {ct : String} {w : Window} {ranges : List ChunkRange}
    {assigned : List Url} {raceProxy : Option Url} (hsize : 0 < args.chunkSize)
    (hstream : args.useStreaming = true) (h : ¬ args.StartsChunks) :
    Quiet (.ok (.stream (args.plan contentLength ct w ranges assigned raceProxy))) := by
  intro plan jobs hplan hjobs run
  cases hplan
  simp only [InnerArgs.StartsChunks, hsize, true_and, not_and] at h
  refine upstream_stream_eq_nil ?_ hjobs run
  by_cases hretries : 0 < args.chunkRetries
  · right
    have hnot := h hretries
    rw [if_pos hstream] at hnot
    rintro (hjob | hstart)
    · apply hnot
      left
      unfold StreamPlan.raceJob at hjob
      split at hjob
      · next hon =>
        simp only [InnerArgs.plan, Bool.and_eq_true] at hon
        exact hon.1
      · cases hjob
    · exact hnot (.inr hstart)
  · exact .inl (not_lt.mp hretries)

theorem sends_gatherChunks {contentLength : Int} {ct : String} {w : Window}
    {ranges : List ChunkRange} {assigned : List Url} (hsize : 0 < args.chunkSize)
    (hstream : ¬ args.useStreaming = true) (h : ¬ args.StartsChunks) :
    Sends P (gatherChunks args contentLength ct w ranges assigned) Quiet := by
  have hnone : args.chunkRetries ≤ 0 ∨ args.maxWorkers = 0 := by
    simp only [InnerArgs.StartsChunks, hsize, true_and, not_and] at h
    by_cases hretries : 0 < args.chunkRetries
    · have hnot := h hretries
      rw [if_neg hstream] at hnot
      exact .inr (by omega)
    · exact .inl (not_lt.mp hretries)
  unfold gatherChunks
  split
  · exact Quiet.error _
  · next jobs hjobs =>
    simp only [keeps_bind, keeps_call]
    intro run _
    refine ⟨?_, ?_⟩
    · intro r hr
      rw [upstream_gather_eq_nil hnone hjobs run] at hr
      cases hr
    · split
      · exact Quiet.error _
      · exact quiet_assemble

theorem sends_fetchChunks {contentLength : Int} {ct : String} {w : Window}
    {ranges : List ChunkRange} {assigned : List Url} (hsize : 0 < args.chunkSize)
    (h : ¬ args.StartsChunks) :
    Sends P (fetchChunks args contentLength ct w ranges assigned) Quiet := by
  refine Keeps.bind sends_pickRace fun raceProxy _ => ?_
  split
  · next hstream => exact quiet_plan hsize hstream h
  · next hstream => exact sends_gatherChunks hsize hstream h

theorem sends_prewarm : Sends P (prewarm args) fun _ => True := by
  unfold prewarm
  split
  · trivial
  · simp only [keeps_bind, keeps_call]
    intro view _
    refine ⟨List.forall_mem_nil _, ?_⟩
    split
    · exact fun _ _ => ⟨List.forall_mem_nil _, trivial⟩
    · trivial

theorem sends_noProxies : Sends P (noProxies args) Quiet := by
  simp only [noProxies, keeps_bind, keeps_call]
  exact fun _ _ => ⟨List.forall_mem_nil _, Quiet.response _⟩

theorem sends_splitWindow {contentLength : Int} {ct : String} {w : Window}
    (h : w.stop < w.start ∨ ¬ args.StartsChunks) :
    Sends P (splitWindow args contentLength ct w) Quiet := by
  simp only [splitWindow, keeps_bind]
  refine Keeps.mono (fun _ _ h => h) (fun _ _ _ h => h) ?_ sends_prewarm
  intro _ _
  by_cases hlt : w.stop < w.start
  · rw [buildRanges_of_lt hlt]
    simp only [keeps_bind, keeps_call]
    intro views _
    refine ⟨List.forall_mem_nil _, ?_⟩
    have hnil : PoolView.distributeProxies views ([] : List ChunkRange).length args.pool args.pin
        args.weighted args.excludeWindow = [] := by
      rcases PoolView.length_distributeProxies with hlen | ⟨-, -, hnil⟩
      · exact List.length_eq_zero_iff.mp hlen
      · exact hnil
    rw [if_pos hnil]
    exact sends_noProxies
  have hstarts := h.resolve_left hlt
  by_cases hsize : 0 < args.chunkSize
  · split
    · exact fun x => Empty.elim x
    · simp only [keeps_bind, keeps_call]
      intro views _
      refine ⟨List.forall_mem_nil _, ?_⟩
      split
      · exact sends_noProxies
      · rw [keeps_bind, rebalance]
        split
        · simp only [keeps_bind, keeps_call]
          intro sizes _
          refine ⟨List.forall_mem_nil _, ?_⟩
          simp only [keeps_pure']
          split
          · exact fun x => Empty.elim x
          · exact sends_fetchChunks hsize hstarts
        · exact sends_fetchChunks hsize hstarts
  · rw [buildRanges, rangeLoop_eq_none (not_lt.mp hsize) (not_lt.mp hlt)]
    exact fun x => Empty.elim x

theorem sends_fetchFallback {requestProxy : Option Url} {ct : String}
    (h : ∀ current, P ((args.wholeJob requestProxy).request current)) :
    Sends P (fetchFallback args requestProxy ct) Quiet := by
  simp only [fetchFallback, keeps_bind]
  refine Keeps.mono (fun _ _ h => h) (fun _ _ _ h => h) ?_ (sends_within (fetchSends_fetchWhole h))
  intro r _
  split
  · exact Quiet.error _
  · exact Quiet.response _

theorem sends_dispatch {requestProxy : Option Url} {info : HeadInfo}
    (hfall : args.FallsBack info → ∀ current, P ((args.wholeJob requestProxy).request current))
    (hsplit : ¬ args.Splits info) : Sends P (dispatch args requestProxy info) Quiet := by
  unfold dispatch
  split
  · exact Quiet.error _
  · next hexcl => exact sends_fetchFallback (hfall (.inl hexcl))
  · next hexcl =>
    split
    · next hnone => exact sends_fetchFallback (hfall (.inr ⟨hexcl, hnone⟩))
    · next contentLength hlen =>
      split
      · exact Quiet.error _
      · next w hw =>
        apply sends_splitWindow
        by_contra hnot
        simp only [not_or, not_lt, not_not] at hnot
        exact hsplit ⟨hexcl, ⟨contentLength, w, hlen, hw, hnot.1⟩, hnot.2⟩

variable {cfg : RequestConfig} {req : ClientRequest} {url : Url} {rid : String}

theorem sends_recover {exc : PyExc} : Sends P (recover cfg rid exc) fun _ => True := by
  unfold recover
  split
  · trivial
  · split
    · simp only [keeps_bind, keeps_call]
      intro passed _
      refine ⟨List.forall_mem_nil _, ?_⟩
      split <;> trivial
    · trivial
  · trivial

theorem sends_storeResponse {r : Response} :
    Sends P (storeResponse req url r) fun _ => True := by
  unfold storeResponse
  split
  · simp only [keeps_bind, keeps_call]
    exact fun _ _ => ⟨List.forall_mem_nil _, fun _ _ => ⟨List.forall_mem_nil _, trivial⟩⟩
  · trivial

theorem sends_finish {outcome : Outcome} (h : Quiet (.ok outcome)) :
    Sends P (finish req url rid outcome) fun _ => True := by
  unfold finish
  split
  · next plan =>
    simp only [sendStream, keeps_bind]
    split
    · trivial
    · next jobs hjobs =>
      simp only [keeps_bind, keeps_call]
      intro run _
      rw [h plan jobs rfl hjobs run]
      refine ⟨List.forall_mem_nil _, ?_⟩
      simp only [keeps_pure']
      split <;> trivial
  · simp only [keeps_bind]
    refine Keeps.mono (fun _ _ h => h) (fun _ _ _ h => h) ?_ sends_storeResponse
    exact fun _ _ => trivial

theorem sends_respond {result : Except PyExc Outcome} (h : Quiet result) :
    Sends P (respond cfg req url rid result) fun _ => True := by
  unfold respond
  split
  · exact sends_recover
  · simp only [keeps_bind]
    refine Keeps.mono (fun _ _ h => h) (fun _ _ _ h => h) ?_ (sends_finish h)
    intro r _
    split
    · trivial
    · trivial
    · exact sends_recover

end Quiet

section Violations

variable {P : HttpRequest → Prop} {args : InnerArgs}

def poolOf (pool : Option String) : PoolView where
  registry := ⟨["http://10.0.0.1:8080"]⟩
  proxyTags := match pool with
    | none => .empty
    | some tag => Dict.empty.set "http://10.0.0.1:8080" {tag}
  breaker := .new 5 60 3600
  clock := ⟨0, 0⟩
  scores := .empty
  random := 0
  choice := 0

theorem available_poolOf (pool : Option String) :
    (poolOf pool).available pool = ["http://10.0.0.1:8080"] := by
  have hblocked : (poolOf pool).breaker.blockedUrls 0 = ∅ := by
    simp [poolOf, CircuitBreaker.blockedUrls, CircuitBreaker.new, Dict.empty]
  have hall : (poolOf pool).registry.all.filter (fun p => p ∉ (poolOf pool).breaker.blockedUrls
      (poolOf pool).clock.monotonic) = ["http://10.0.0.1:8080"] := by
    change ["http://10.0.0.1:8080"].filter (fun p => p ∉ (poolOf pool).breaker.blockedUrls 0) = _
    rw [hblocked]
    rfl
  rw [PoolView.available, hall]
  unfold PoolView.urlsForPool
  cases hpool : truthy pool with
  | none => rfl
  | some tag =>
    obtain ⟨rfl, -⟩ := truthy_eq_some hpool
    simp [poolOf]

theorem pickProxy_poolOf (pool : Option String) {excludeSet : Finset Url}
    (h : excludeSet.Nonempty) (weighted : Bool) :
    (poolOf pool).pickProxy pool excludeSet none weighted = some "http://10.0.0.1:8080" := by
  have hcand : (poolOf pool).candidates pool excludeSet = ["http://10.0.0.1:8080"] := by
    have hcard := Finset.card_pos.mpr h
    rw [PoolView.candidates, available_poolOf, if_neg]
    rintro ⟨-, hlt⟩
    rw [List.length_singleton] at hlt
    omega
  cases hpick : (poolOf pool).pickProxy pool excludeSet none weighted with
  | none =>
    cases weighted with
    | true =>
      rw [PoolView.scoreChoice_eq_none.mp hpick] at hcand
      cases hcand
    | false =>
      rw [PoolView.randomChoice_eq_none.mp hpick] at hcand
      cases hcand
  | some p =>
    have hmem := PoolView.mem_available_of_pickProxy hpick
    rw [available_poolOf, List.mem_singleton] at hmem
    rw [hmem]

/-- The request of `fetch_whole` goes out, if only because its first pick finds nothing. -/
theorem of_sends_fetchFallback {requestProxy : Option Url} {ct : String}
    {Q : Except PyExc Outcome → Prop} (hproxy : truthy requestProxy = none)
    (h : Sends P (fetchFallback args requestProxy ct) Q) :
    P ((args.wholeJob requestProxy).request none) := by
  have hempty : (PoolView.viewOf []).pickProxy args.pool ∅ none args.weighted =
      none :=
    PoolView.pickProxy_eq_none.mpr (by cases hp : truthy args.pool <;> simp [PoolView.available,
      PoolView.urlsForPool, PoolView.viewOf, hp])
  simp only [fetchFallback, keeps_bind] at h
  have h := keeps_within.mp h
  simp only [fetchWhole, firstProxy, InnerArgs.wholeJob, hproxy, pickProxy, keeps_bind,
    keeps_call] at h
  have h := (h (PoolView.viewOf []) trivial).2
  simp only [keeps_pure', hempty] at h
  change Keeps _ _ (wholeAttempts (args.wholeJob requestProxy) 3 none _) _ at h
  simp only [wholeAttempts, checkBreakerWhole, truthy, requestWhole, keeps_bind, keeps_pure',
    keeps_call] at h
  exact (h (.error .timeout) trivial).1 _ (List.mem_singleton.mpr rfl)

theorem distributeProxies_poolOf (n : Nat) (pool pin : Option String) (weighted : Bool)
    (win : Int) : ∃ p, PoolView.distributeProxies (fun _ => poolOf pool) n pool pin weighted win =
      List.replicate n p := by
  cases hpin : truthy pin with
  | some p => exact ⟨p, by simp only [PoolView.distributeProxies, hpin]⟩
  | none => exact ⟨_, by simp only [PoolView.distributeProxies, hpin, available_poolOf]; rfl⟩

def answeredTasks (jobs : List ChunkJob) (i : Fin jobs.length) : Option (Task (fetchChunk (jobs.get i))) :=
  some (answeredTask (jobs.get i))

theorem of_all_answeredTasks {jobs : List ChunkJob} (hne : jobs ≠ [])
    (hretries : ∀ j ∈ jobs, 0 < j.chunkRetries)
    (h : ∀ r ∈ requestsOfAll (answeredTasks jobs), P r) : ∃ j : ChunkJob, P (j.request j.proxyUrl) := by
  have hpos := List.length_pos_iff.mpr hne
  refine ⟨jobs[0], h _ ?_⟩
  exact mem_requestsOfAll (i := ⟨0, hpos⟩) rfl
    (mem_answeredTask (hretries _ (List.getElem_mem hpos)))

section Respond

variable {cfg : RequestConfig} {req : ClientRequest} {url : Url} {rid : String}

theorem of_sends_respond_stream {plan : StreamPlan} {jobs : List ChunkJob}
    (hjobs : plan.jobs = .ok jobs) (hne : jobs ≠ []) (hretries : 0 < plan.chunkRetries)
    (hstarts : plan.Starts) {Q : Reply → Prop}
    (h : Sends P (respond cfg req url rid (.ok (.stream plan))) Q) :
    ∃ j : ChunkJob, P (j.request j.proxyUrl) := by
  simp only [respond, finish, sendStream, hjobs, keeps_bind, keeps_call] at h
  have hsent := (h ⟨answeredTasks jobs, fun _ _ => none, .ok (), fun _ _ => hstarts⟩ trivial).1
  refine of_all_answeredTasks hne ?_ fun r hr => hsent r (List.mem_append_left _ hr)
  intro j hj
  obtain ⟨r, p, -, rfl⟩ := mem_of_chunkJobs hjobs hj
  exact hretries

theorem of_sends_gatherChunks {contentLength : Int} {ct : String} {w : Window}
    {ranges : List ChunkRange} {assigned : List Url} {jobs : List ChunkJob}
    (hjobs : chunkJobs args.chunkJob ranges assigned = .ok jobs) (hne : jobs ≠ [])
    (hretries : 0 < args.chunkRetries) (hworkers : 0 < args.maxWorkers)
    {Q : Except PyExc Outcome → Prop}
    (h : Sends P (gatherChunks args contentLength ct w ranges assigned) Q) :
    ∃ j : ChunkJob, P (j.request j.proxyUrl) := by
  simp only [gatherChunks, hjobs, keeps_bind, keeps_call] at h
  have hsent := (h ⟨answeredTasks jobs, false, fun _ _ => hworkers, fun _ _ => rfl⟩ trivial).1
  refine of_all_answeredTasks hne ?_ hsent
  intro j hj
  obtain ⟨r, p, -, rfl⟩ := mem_of_chunkJobs hjobs hj
  exact hretries

theorem exists_index_zero {start stop : Int} {ranges : List ChunkRange}
    (hranges : Partition start stop ranges) (hne : ranges ≠ []) :
    (ranges.find? fun r => r.index = 0).isSome := by
  rw [List.find?_isSome]
  have hzero : 0 ∈ ranges.map ChunkRange.index := by
    rw [hranges.indices, List.mem_range]
    exact List.length_pos_iff.mpr hne
  obtain ⟨r, hr, hindex⟩ := List.mem_map.mp hzero
  exact ⟨r, hr, decide_eq_true hindex⟩

theorem jobs_ne_nil {job : ChunkRange → Url → ChunkJob} {ranges : List ChunkRange}
    {assigned : List Url} {jobs : List ChunkJob}
    (h : List.Forall₂ (fun r j => ∃ p ∈ assigned, j = job r p) ranges jobs) (hne : ranges ≠ []) :
    jobs ≠ [] := by
  rintro rfl
  exact hne (List.forall₂_nil_right_iff.mp h)

/-- Where chunks can be fetched, the GET of the first one goes out in some run. -/
theorem of_sends_fetchChunks {contentLength : Int} {ct : String} {w : Window}
    {ranges : List ChunkRange} {assigned : List Url} (hstarts : args.StartsChunks)
    (hranges : Partition w.start w.stop ranges) (hne : ranges ≠ [])
    (hlen : assigned.length = ranges.length)
    (h : Sends P (fetchChunks args contentLength ct w ranges assigned) fun result =>
      Sends P (respond cfg req url rid result) fun _ => True) :
    ∃ j : ChunkJob, P (j.request j.proxyUrl) := by
  obtain ⟨-, hretries, hstarts⟩ := hstarts
  simp only [fetchChunks, keeps_bind] at h
  have hassigned : assigned.head?.toFinset.Nonempty := by
    cases assigned with
    | nil => exact absurd (List.length_eq_zero_iff.mp hlen.symm) hne
    | cons p rest => exact ⟨p, by simp⟩
  have hpick : ∃ raceProxy, (args.raceFirstChunk = true → raceProxy = some "http://10.0.0.1:8080") ∧
      Sends P (if args.useStreaming then Pure.pure (.ok (.stream
        (args.plan contentLength ct w ranges assigned raceProxy)))
        else gatherChunks args contentLength ct w ranges assigned) fun result =>
          Sends P (respond cfg req url rid result) fun _ => True := by
    unfold pickRace at h
    split at h
    · have h := keeps_within.mp h
      simp only [pickProxy, keeps_bind, keeps_call] at h
      exact ⟨_, fun _ => pickProxy_poolOf args.pool hassigned args.weighted,
        (h (poolOf args.pool) trivial).2⟩
    · next hrace =>
      refine ⟨none, fun hon => absurd ⟨hon, ?_⟩ hrace, h⟩
      exact List.length_pos_iff.mpr hne
  obtain ⟨raceProxy, hraceProxy, h⟩ := hpick
  obtain ⟨jobs, hjobs, hall⟩ : ∃ jobs, chunkJobs args.chunkJob ranges assigned = .ok jobs ∧
      List.Forall₂ (fun r j => ∃ p ∈ assigned, j = args.chunkJob r p) ranges jobs :=
    chunkJobs_eq hranges hlen
  split at h
  · next hstream =>
    rw [if_pos hstream] at hstarts
    have hplan : (args.plan contentLength ct w ranges assigned raceProxy).jobs = .ok jobs := hjobs
    refine of_sends_respond_stream hplan (jobs_ne_nil hall hne) hretries ?_ h
    refine hstarts.imp_left fun hon => ?_
    obtain ⟨r, hr⟩ := Option.isSome_iff_exists.mp (exists_index_zero hranges hne)
    simp [StreamPlan.raceJob, InnerArgs.plan, hon, hraceProxy hon, truthy, hr]
  · next hstream =>
    rw [if_neg hstream] at hstarts
    exact of_sends_gatherChunks hjobs (jobs_ne_nil hall hne) hretries hstarts h

theorem ranges_ne_nil {start stop : Int} {ranges : List ChunkRange}
    (hranges : Partition start stop ranges) (hle : start ≤ stop) : ranges ≠ [] := by
  rintro rfl
  have htiles := hranges.tiles
  rw [List.map_nil, Tiles] at htiles
  omega

theorem of_sends_splitWindow {contentLength : Int} {ct : String} {w : Window}
    (hstarts : args.StartsChunks) (hle : w.start ≤ w.stop)
    (h : Sends P (splitWindow args contentLength ct w) fun result =>
      Sends P (respond cfg req url rid result) fun _ => True) :
    ∃ j : ChunkJob, P (j.request j.proxyUrl) := by
  have hsize : 1 ≤ args.chunkSize := hstarts.1
  have hwindow : w.start ≤ w.stop + 1 := by omega
  obtain ⟨ranges, hbuild, hranges⟩ := buildRanges_spec hsize hwindow
  have hne := ranges_ne_nil hranges hle
  simp only [splitWindow, keeps_bind] at h
  have h := of_keeps_prewarm (fun _ => trivial) (fun _ => trivial) h
  simp only [hbuild, keeps_bind, keeps_call] at h
  have h := (h (fun _ => poolOf args.pool) trivial).2
  obtain ⟨p, hassigned⟩ := distributeProxies_poolOf ranges.length args.pool args.pin args.weighted
    args.excludeWindow
  have hlen : (List.replicate ranges.length p).length = ranges.length := List.length_replicate
  rw [hassigned, if_neg (by simpa using hne), keeps_bind, rebalance] at h
  split at h
  · simp only [keeps_bind, keeps_call] at h
    have h := (h (fun _ => 1) trivial).2
    obtain ⟨rs, as, happly, hrs, has⟩ :=
      applyPerProxyChunkSizes_spec hsize (fun _ => le_rfl) hwindow hranges hlen
    simp only [keeps_pure', happly] at h
    exact of_sends_fetchChunks hstarts hrs (ranges_ne_nil hrs hle) has h
  · exact of_sends_fetchChunks hstarts hranges hne hlen h

theorem of_sends_dispatch_of_splits {requestProxy : Option Url} {info : HeadInfo}
    (hsplits : args.Splits info)
    (h : Sends P (dispatch args requestProxy info) fun result =>
      Sends P (respond cfg req url rid result) fun _ => True) :
    ∃ j : ChunkJob, P (j.request j.proxyUrl) := by
  obtain ⟨hexcl, ⟨contentLength, w, hlen, hw, hle⟩, hstarts⟩ := hsplits
  simp only [dispatch, hexcl, hlen, hw] at h
  exact of_sends_splitWindow hstarts hle h

theorem of_sends_dispatch_of_fallsBack {info : HeadInfo} {Q : Except PyExc Outcome → Prop}
    (hfall : args.FallsBack info) (h : Sends P (dispatch args none info) Q) :
    P ((args.wholeJob none).request none) := by
  rcases hfall with hexcl | ⟨hexcl, hnone⟩
  · simp only [dispatch, hexcl] at h
    exact of_sends_fetchFallback rfl h
  · simp only [dispatch, hexcl, hnone] at h
    exact of_sends_fetchFallback rfl h

end Respond

end Violations

theorem carries_wholeJob {cfg : RequestConfig} {req : ClientRequest} {url : Url} {rid : String}
    {chunkSize : Int} (hmethod : req.method ∈ ["POST", "PUT", "PATCH", "DELETE"])
    (requestProxy current : Option Url) :
    Carries req (((innerArgs cfg req url rid chunkSize req.passedBody).wholeJob
      requestProxy).request current) ↔ (req.method = "DELETE" → req.body = []) := by
  simp only [List.mem_cons, List.not_mem_nil, or_false] at hmethod
  rcases hmethod with h | h | h | h <;>
    simp [Carries, WholeJob.request, InnerArgs.wholeJob, innerArgs, ClientRequest.passedBody,
      ClientRequest.readsBody, h, eq_comm]

theorem methodBodyKept_iff_sends {cfg : RequestConfig} {req : ClientRequest} {url : Url}
    {rid : String} {chunkSize : Int} {info : HeadInfo} :
    MethodBodyKept cfg req url rid chunkSize info ↔ ∀ requestProxy, Sends (Carries req)
      (behindProbe cfg req url rid chunkSize requestProxy info) fun _ => True := by
  have hsends : (∀ requestProxy, Sends (Carries req)
      (behindProbe cfg req url rid chunkSize requestProxy info) fun _ => True) ↔
      MethodBodyKept cfg req url rid chunkSize info := forall_congr' fun _ => keeps_iff_steps
  exact hsends.symm

theorem not_methodBodyKept_of_splits {cfg : RequestConfig} {req : ClientRequest} {url : Url}
    {rid : String} {chunkSize : Int} {info : HeadInfo} (hmethod : req.method ≠ "GET")
    (hsplits : (innerArgs cfg req url rid chunkSize req.passedBody).Splits info) :
    ¬ MethodBodyKept cfg req url rid chunkSize info := by
  intro h
  have h := methodBodyKept_iff_sends.mp h none
  simp only [behindProbe, keeps_bind] at h
  obtain ⟨j, hget, -⟩ := of_sends_dispatch_of_splits hsplits h
  exact hmethod hget.symm

/-- Method and body are lost exactly by requests that are split, and by a DELETE with a body. -/
theorem methodBodyKept_iff (cfg : RequestConfig) (req : ClientRequest) (url : Url) (rid : String)
    (chunkSize : Int) (info : HeadInfo)
    (hmethod : req.method ∈ ["POST", "PUT", "PATCH", "DELETE"]) :
    MethodBodyKept cfg req url rid chunkSize info ↔
      ¬ (innerArgs cfg req url rid chunkSize req.passedBody).Splits info ∧
      ((innerArgs cfg req url rid chunkSize req.passedBody).FallsBack info →
        req.method = "DELETE" → req.body = []) := by
  constructor
  · intro h
    constructor
    · intro hsplits
      refine not_methodBodyKept_of_splits ?_ hsplits h
      rintro hget
      simp [hget] at hmethod
    · intro hfall
      have h := methodBodyKept_iff_sends.mp h none
      simp only [behindProbe, keeps_bind] at h
      exact (carries_wholeJob hmethod none none).mp (of_sends_dispatch_of_fallsBack hfall h)
  · rintro ⟨hsplits, hfall⟩
    apply methodBodyKept_iff_sends.mpr
    intro requestProxy
    simp only [behindProbe, keeps_bind]
    refine Keeps.mono (fun _ _ h => h) (fun _ _ _ h => h) (fun _ => sends_respond)
      (sends_dispatch (fun h current => ?_) hsplits)
    exact (carries_wholeJob hmethod requestProxy current).mpr (hfall h)

def upload : ClientRequest where
  method := "POST"
  url := some "http://origin.example/form"
  noCache := none
  pool := none
  headers := []
  body := [1, 2, 3]

theorem methodBodyKept_without_ranges :
    MethodBodyKept {} upload "http://origin.example/form" "-" 524288
      ⟨some 1000, false, "text/html"⟩ := by
  apply (methodBodyKept_iff {} upload _ _ _ _ (by decide)).mpr
  constructor
  · rintro ⟨-, ⟨contentLength, w, hlen, -⟩, -⟩
    cases hlen
  · intro _ hmethod
    exact absurd hmethod (by decide)

theorem body_lost_with_ranges :
    ¬ MethodBodyKept {} upload "http://origin.example/form" "-" 524288
      ⟨some 1000, true, "text/html"⟩ := by
  apply not_methodBodyKept_of_splits (by decide)
  refine ⟨by decide +kernel, ⟨1000, ⟨0, 999, false⟩, rfl, rfl, by decide⟩, by decide, by decide, ?_⟩
  exact .inr ⟨by decide, by decide⟩

end ProxySplit
