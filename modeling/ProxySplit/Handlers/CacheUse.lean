import ProxySplit.Handlers.Request
import ProxySplit.Handlers.Delivery
import ProxySplit.Handlers.Assembly

namespace ProxySplit

open Lib Prog

def Complete (rep : Url → Bytes → Prop) (url : Url) (r : Cached) : Prop :=
  r.status = 200 ∧ rep url r.body

/-- An origin answers as it should while `body` is its representation of the url: lengths and ranges are
those of `body`, and a 200 has a whole representation. -/
def Honest (rep : Url → Bytes → Prop) (body : Bytes) :
    (e : RequestEffect) → RequestAnswer e → Prop
  | .heads _ _, run => ∀ info n, run.outcome = .ok (some info) → info.splittable = some n →
      n = body.length
  | .fetch .rangeProbe (.http _), .ok resp => ∀ info n, readRangeProbe resp = some info →
      info.splittable = some n → n = body.length
  | .fetch .whole (.http r), .ok resp => r.method = "GET" → resp.status = 200 → rep r.url resp.body
  | .fetch .revalidate (.http r), .ok resp => resp.status = 200 → rep r.url resp.body
  | .gather _ _ jobs, run => ∀ i t res, run.tasks i = some t → t.result = .ok res →
      res.data = slice body (jobs.get i).start (jobs.get i).stop
  | _, _ => True

/-- The one upstream request of a fallback is answered with 200, and chunks are assembled to all of the
representation, none of them having failed. -/
def Succeeds (req : ClientRequest) (body : Bytes) : (e : RequestEffect) → RequestAnswer e → Prop
  | .fetch .whole (.http _), .ok resp => resp.status = 200
  | .gather _ _ _, run => (∀ w, selectWindow body.length req.clientRange = .ok w →
      w.isPartial = false) ∧ ∀ i t, run.tasks i = some t → ∃ res, t.result = .ok res
  | _, _ => True

structure Clean (rep : Url → Bytes → Prop) (req : ClientRequest) (body : Bytes) (e : RequestEffect)
    (x : RequestAnswer e) : Prop where
  honest : Honest rep body e x
  assigned : Assigned e x
  sizes : SizesPositive e x
  succeeds : Succeeds req body e x

def Hits (rep : Url → Bytes → Prop) : (e : RequestEffect) → RequestAnswer e → Prop
  | .cacheGet url, some r => Complete rep url r
  | .diskGet url, .ok (some r) => Complete rep url r
  | _, _ => True

def PutsComplete (rep : Url → Bytes → Prop) (clean : Prop) :
    (e : RequestEffect) → RequestAnswer e → Prop
  | .cachePut url r, _ => clean → Complete rep url r
  | .diskPut url r, _ => clean → Complete rep url r
  | _, _ => True

def cleanUse (rep : Url → Bytes → Prop) (req : ClientRequest) (body : Bytes) :
    Monitor RequestEffect RequestAnswer Prop := fun clean e x => clean ∧ Clean rep req body e x

def CacheSpec (rep : Url → Bytes → Prop) (req : ClientRequest) (body : Bytes) {α : Type}
    (p : Request α) (Q : Prop → α → Prop) (clean : Prop) : Prop :=
  KeepsWith (cleanUse rep req body) (Hits rep) (PutsComplete rep) p Q clean

def Response.FromStore (r : Response) : Prop :=
  ∃ tag ∈ ["HIT-L1", "HIT-L1-REVALIDATED", "HIT-L2"], ("X-Cache", tag) ∈ r.headers

def AnswersComplete (rep : Url → Bytes → Prop) (url : Url) : Reply → Prop
  | .response r => r.FromStore → r.status = 200 ∧ rep url r.body
  | _ => True

section Spec

variable {rep : Url → Bytes → Prop} {req : ClientRequest} {body : Bytes} {α β : Type}
  {p : Request α} {Q : Prop → α → Prop} {clean : Prop}

theorem CacheSpec.bind {f : α → Request β} {R : Prop → β → Prop}
    (hp : CacheSpec rep req body p Q clean)
    (hf : ∀ clean a, Q clean a → CacheSpec rep req body (f a) R clean) :
    CacheSpec rep req body (p >>= f) R clean := KeepsWith.bind hp hf

theorem CacheSpec.perform {e : RequestEffect} (h : ∀ x, PutsComplete rep clean e x) :
    CacheSpec rep req body (ProxySplit.perform e)
      (fun clean' x => (clean' → clean ∧ Clean rep req body e x) ∧ Hits rep e x) clean :=
  fun x hx => ⟨h x, id, hx⟩

theorem CacheSpec.ask {part : Part} {e : FetchEffect} :
    CacheSpec rep req body (ProxySplit.within part (ProxySplit.ask e))
      (fun clean' x => clean' → clean ∧ Clean rep req body (.fetch part e) x) clean :=
  fun _ _ => ⟨trivial, id⟩

theorem CacheSpec.within {part : Part} {p : Fetch α} :
    CacheSpec rep req body (ProxySplit.within part p) (fun clean' _ => clean' → clean) clean := by
  have hp : ∀ c : Prop, (c → clean) →
      CacheSpec rep req body (ProxySplit.within part p) (fun clean' _ => clean' → clean) c := by
    induction p with
    | pure a => exact fun _ h => h
    | perform e k ih => exact fun c h x _ => ⟨trivial, ih x _ fun hc => h hc.1⟩
  exact hp clean id

theorem cacheSpec_of_preparing (h : Prepares (Hits rep) p) :
    CacheSpec rep req body p (fun clean' _ => clean' → clean) clean := by
  refine (h.keepsWith (I := fun clean' => clean' → clean) ?_ id).mono fun _ _ h => h.1
  intro clean' e x hclean hprep
  refine ⟨?_, fun h => hclean h.1⟩
  cases e with
  | cachePut | diskPut => exact hprep.elim
  | _ => trivial

end Spec

section Probe

variable {rep : Url → Bytes → Prop} {req : ClientRequest} {body : Bytes} {clean : Prop}

def Probed (body : Bytes) (before : Prop) (clean : Prop) (r : Except PyExc HeadInfo) : Prop :=
  clean → before ∧ ∀ info n, r = .ok info → info.splittable = some n → n = body.length

theorem cacheSpec_tryHeads {args : ProbeArgs} {proxies : List Url} :
    CacheSpec rep req body (tryHeads args proxies) (fun clean' r => clean' → clean ∧
      ∀ info n, r = .ok (some info) → info.splittable = some n → n = body.length) clean := by
  unfold tryHeads
  split
  · exact fun h => ⟨h, nofun⟩
  · refine .bind (.perform fun _ => trivial) ?_
    exact fun clean' run h hclean => ⟨(h.1 hclean).1, (h.1 hclean).2.honest⟩

theorem cacheSpec_rangeProbe {args : ProbeArgs} :
    CacheSpec rep req body (within .rangeProbe (rangeProbe args)) (Probed body clean) clean := by
  simp only [rangeProbe, within_bind]
  refine .bind .within fun clean₁ pick h₁ => ?_
  split
  · exact fun h => ⟨h₁ h, nofun⟩
  · rw [within_bind]
    refine .bind .ask fun clean₂ r h₂ => ?_
    split
    · exact fun h => ⟨h₁ (h₂ h).1, nofun⟩
    · exact fun h => ⟨h₁ (h₂ h).1, nofun⟩
    · next resp =>
      split
      · next info hinfo =>
        refine fun h => ⟨h₁ (h₂ h).1, ?_⟩
        intro info' n hr
        cases hr
        exact (h₂ h).2.honest info n hinfo
      · exact fun h => ⟨h₁ (h₂ h).1, nofun⟩

theorem cacheSpec_getHeadInfo {args : ProbeArgs} :
    CacheSpec rep req body (getHeadInfo args) (Probed body clean) clean := by
  unfold getHeadInfo
  refine .bind .within fun clean₁ proxies h₁ => ?_
  refine .bind cacheSpec_tryHeads fun clean₂ r h₂ => ?_
  split
  · exact fun h => ⟨h₁ (h₂ h).1, nofun⟩
  · refine fun h => ⟨h₁ (h₂ h).1, ?_⟩
    intro info' n hr
    cases hr
    exact (h₂ h).2 _ n rfl
  · refine cacheSpec_rangeProbe.mono fun clean₃ r h₃ h => ?_
    exact ⟨h₁ (h₂ (h₃ h).1).1, (h₃ h).2⟩

theorem cacheSpec_resolveContentInfo {args : ProbeArgs} :
    CacheSpec rep req body (resolveContentInfo args) (Probed body clean) clean := by
  unfold resolveContentInfo
  refine .bind cacheSpec_getHeadInfo fun clean' r h => ?_
  split
  · exact fun hclean => ⟨(h hclean).1, fun info n hr => by cases hr; exact (h hclean).2 _ n rfl⟩
  · split
    · refine fun hclean => ⟨(h hclean).1, ?_⟩
      intro info n hr hsplit
      cases hr
      cases hsplit
    · exact fun hclean => ⟨(h hclean).1, nofun⟩

end Probe

section Whole

variable {rep : Url → Bytes → Prop} {req : ClientRequest} {body : Bytes} {clean : Prop}
  {job : WholeJob}

/-- In a clean request `fetch_whole` returns a complete 200. -/
def Fetched200 (rep : Url → Bytes → Prop) (job : WholeJob) (before : Prop) (clean : Prop)
    (r : Except PyExc WholeResult) : Prop :=
  clean → before ∧ ∀ res, r = .ok res →
    res.status = 200 ∧ (job.method = "GET" → rep job.url res.data)

theorem cacheSpec_requestWhole {current : Option Url} :
    CacheSpec rep req body (within .whole (requestWhole job current)) (Fetched200 rep job clean)
      clean := by
  rw [requestWhole, within_bind]
  refine .bind .ask fun clean₁ r h₁ => ?_
  split
  · exact fun h => ⟨(h₁ h).1, nofun⟩
  · next resp =>
    rw [within_bind]
    refine .bind .ask fun clean₂ _ h₂ h => ?_
    obtain ⟨hclean, hevent⟩ := h₁ (h₂ h).1
    have hstatus : resp.status = 200 := hevent.succeeds
    refine ⟨hclean, ?_⟩
    intro res hres
    cases hres
    exact ⟨hstatus, fun hget => hevent.honest hget hstatus⟩

theorem cacheSpec_wholeAttempts {left : Nat} {current : Option Url} {lastExc : PyExc} :
    CacheSpec rep req body (within .whole (wholeAttempts job left current lastExc))
      (Fetched200 rep job clean) clean := by
  induction left generalizing current lastExc clean with
  | zero => exact fun h => ⟨h, nofun⟩
  | succ left ih =>
    rw [wholeAttempts, within_bind]
    refine .bind .within fun clean₁ cur h₁ => ?_
    rw [within_bind]
    refine .bind cacheSpec_requestWhole fun clean₂ r h₂ => ?_
    split
    · refine fun h => ⟨h₁ (h₂ h).1, ?_⟩
      intro res hres
      cases hres
      exact (h₂ h).2 _ rfl
    · split
      · rw [within_bind]
        refine .bind .within fun clean₃ _ h₃ => ?_
        rw [within_bind]
        refine .bind .within fun clean₄ next h₄ => ?_
        refine ih.mono fun clean₅ r h₅ h => ?_
        exact ⟨h₁ (h₂ (h₃ (h₄ (h₅ h).1))).1, (h₅ h).2⟩
      · exact fun h => ⟨h₁ (h₂ h).1, nofun⟩

theorem cacheSpec_fetchWhole :
    CacheSpec rep req body (within .whole (fetchWhole job)) (Fetched200 rep job clean) clean := by
  rw [fetchWhole, within_bind]
  refine .bind .within fun clean₁ first h₁ => ?_
  exact cacheSpec_wholeAttempts.mono fun clean₂ r h₂ h => ⟨h₁ (h₂ h).1, (h₂ h).2⟩

end Whole

section Dispatch

variable {rep : Url → Bytes → Prop} {req : ClientRequest} {body : Bytes} {clean : Prop}
  {args : InnerArgs}

def Response.Untagged (r : Response) : Prop := ∀ h ∈ r.headers, h.1 ≠ "X-Cache"

def Fitting (rep : Url → Bytes → Prop) (args : InnerArgs) (clean : Prop)
    (out : Except PyExc Outcome) : Prop :=
  ∀ r, out = .ok (.response r) →
    r.Untagged ∧ (clean → args.method = "GET" → r.status = 200 ∧ rep args.url r.body)

theorem Fitting.error {exc : PyExc} : Fitting rep args clean (.error exc) := by
  intro r h
  cases h

theorem Fitting.stream {plan : StreamPlan} : Fitting rep args clean (.ok (.stream plan)) := by
  intro r h
  cases h

theorem cacheSpec_fetchFallback {requestProxy : Option Url} {ct : String} :
    CacheSpec rep req body (fetchFallback args requestProxy ct) (Fitting rep args) clean := by
  unfold fetchFallback
  refine .bind cacheSpec_fetchWhole fun clean₁ r h₁ => ?_
  split
  · exact Fitting.error
  · next res =>
    intro r hr
    cases hr
    refine ⟨nofun, fun hclean hget => ?_⟩
    obtain ⟨hstatus, hbody⟩ := (h₁ hclean).2 res rfl
    exact ⟨hstatus, hbody hget⟩

theorem headers_of_assemble {contentLength : Int} {ct : String} {w : Window}
    {ranges : List ChunkRange} {results : List (Except PyExc ChunkResult)} {r : Response}
    (h : assemble args contentLength ct w ranges results = .ok (.response r)) :
    ∀ header ∈ r.headers, header.1 = "Content-Range" := by
  unfold assemble at h
  split at h
  · split at h
    · cases h; exact List.forall_mem_nil _
    · cases h
  · dsimp only at h
    split at h
    · cases h; exact List.forall_mem_nil _
    · split at h
      · cases h
      · split at h
        · cases h; exact List.forall_mem_nil _
        · cases h
          cases w.isPartial with
          | true => simp [StreamPlan.contentRange]
          | false => exact List.forall_mem_nil _

theorem untagged_assemble {contentLength : Int} {ct : String} {w : Window}
    {ranges : List ChunkRange} {results : List (Except PyExc ChunkResult)} {r : Response}
    (h : assemble args contentLength ct w ranges results = .ok (.response r)) : r.Untagged := by
  intro header hmem
  rw [headers_of_assemble h header hmem]
  decide

structure Splitting (args : InnerArgs) (body : Bytes) (n : Int) (w : Window)
    (ranges : List ChunkRange) (assigned : List Url) : Prop where
  length : n = body.length
  selected : selectWindow n args.clientRange = .ok w
  partition : Partition w.start w.stop ranges
  aligned : assigned.length = ranges.length

theorem cacheSpec_gatherChunks (hrange : args.clientRange = req.clientRange)
    (hrep : rep args.url body) {n : Int} {ct : String} {w : Window} {ranges : List ChunkRange}
    {assigned : List Url} (h : clean → Splitting args body n w ranges assigned) :
    CacheSpec rep req body (gatherChunks args n ct w ranges assigned) (Fitting rep args) clean := by
  unfold gatherChunks
  split
  · exact Fitting.error
  · next jobs hjobs =>
    refine .bind (.perform fun _ => trivial) fun clean₁ run h₁ => ?_
    split
    · exact Fitting.error
    · next hdone =>
      intro r hr
      refine ⟨untagged_assemble hr, fun hclean _ => ?_⟩
      obtain ⟨hclean₀, hevent⟩ := h₁.1 hclean
      obtain ⟨rfl, hsel, hranges, hlen⟩ := h hclean₀
      obtain ⟨hwhole, hok⟩ := hevent.succeeds
      obtain rfl : w = .whole body.length :=
        (selected_of_selectWindow hsel).eq_whole (hwhole w (hrange ▸ hsel))
      obtain ⟨jobs', hjobs', hall⟩ : ∃ jobs', chunkJobs args.chunkJob ranges assigned = .ok jobs' ∧
          List.Forall₂ (fun r j => ∃ p ∈ assigned, j = args.chunkJob r p) ranges jobs' :=
        chunkJobs_eq hranges hlen
      obtain rfl : jobs' = jobs := Except.ok.inj (hjobs'.symm.trans hjobs)
      have hdata : ∀ i t, run.tasks i = some t → ∃ res, t.result = .ok res ∧
          res.data = slice body jobs'[i].start jobs'[i].stop := by
        intro i t ht
        obtain ⟨res, hres⟩ := hok i t ht
        exact ⟨res, hres, hevent.honest i t res ht hres⟩
      have hdone' : run.interrupted = false := by simpa using hdone
      rw [assemble_gather run hdone' hranges hall hdata] at hr
      cases hr
      exact ⟨rfl, hrep⟩

theorem cacheSpec_fetchChunks (hrange : args.clientRange = req.clientRange)
    (hrep : rep args.url body) {n : Int} {ct : String} {w : Window} {ranges : List ChunkRange}
    {assigned : List Url} (h : clean → Splitting args body n w ranges assigned) :
    CacheSpec rep req body (fetchChunks args n ct w ranges assigned) (Fitting rep args) clean := by
  unfold fetchChunks
  refine .bind (cacheSpec_of_preparing prepares_pickRace) fun clean₁ raceProxy h₁ => ?_
  split
  · exact Fitting.stream
  · exact cacheSpec_gatherChunks hrange hrep fun hclean => h (h₁ hclean)

theorem cacheSpec_noProxies (h : ¬ clean) :
    CacheSpec rep req body (noProxies args) (Fitting rep args) clean := by
  unfold noProxies
  refine .bind (.perform fun _ => trivial) fun clean₁ view h₁ => ?_
  intro r hr
  cases hr
  exact ⟨by simp [Response.Untagged, Response.ofText], fun hclean => absurd (h₁.1 hclean).1 h⟩

theorem cacheSpec_rebalance {n : Int} {w : Window} {ranges : List ChunkRange} {assigned : List Url}
    (hw : clean → 1 ≤ args.chunkSize ∧ w.start ≤ w.stop + 1)
    (h : clean → Splitting args body n w ranges assigned) :
    CacheSpec rep req body (rebalance args w ranges assigned) (fun clean' out => clean' →
      ∀ rs as, out = some (rs, as) → Splitting args body n w rs as) clean := by
  unfold rebalance
  split
  · refine .bind (.perform fun _ => trivial) fun clean₁ sizes h₁ => ?_
    intro hclean rs as hout
    obtain ⟨hclean₀, hevent⟩ := h₁.1 hclean
    obtain ⟨hsize, hwindow⟩ := hw hclean₀
    obtain ⟨hlength, hsel, hranges, hlen⟩ := h hclean₀
    obtain ⟨rs', as', happly, hrs, has⟩ :=
      applyPerProxyChunkSizes_spec hsize hevent.sizes hwindow hranges hlen
    cases happly.symm.trans hout
    exact ⟨hlength, hsel, hrs, has⟩
  · intro hclean rs as hout
    cases hout
    exact h hclean

theorem splitting_of_buildRanges {n : Int} {w : Window} {ranges : List ChunkRange}
    {assigned : List Url} (hlength : n = body.length) (hn : n ≠ 0)
    (hsel : selectWindow n args.clientRange = .ok w)
    (hbuild : buildRanges args.chunkSize w.start w.stop = some ranges)
    (hlen : assigned.length = ranges.length) :
    (1 ≤ args.chunkSize ∧ w.start ≤ w.stop + 1) ∧ Splitting args body n w ranges assigned := by
  have hpos : 0 < n := by omega
  obtain ⟨-, hle, -⟩ := (selected_of_selectWindow hsel).bounds hpos
  have hsize : 1 ≤ args.chunkSize := by
    by_contra hnot
    rw [buildRanges, rangeLoop_eq_none (by omega) hle] at hbuild
    cases hbuild
  have hwindow : w.start ≤ w.stop + 1 := by omega
  obtain ⟨ranges', hbuild', hranges⟩ := buildRanges_spec hsize hwindow
  cases hbuild.symm.trans hbuild'
  exact ⟨⟨hsize, hwindow⟩, hlength, hsel, hranges, hlen⟩

theorem cacheSpec_splitWindow (hrange : args.clientRange = req.clientRange)
    (hrep : rep args.url body) {n : Int} {ct : String} {w : Window} (hn : n ≠ 0)
    (hsel : selectWindow n args.clientRange = .ok w) (h : clean → n = body.length) :
    CacheSpec rep req body (splitWindow args n ct w) (Fitting rep args) clean := by
  unfold splitWindow
  refine .bind (cacheSpec_of_preparing prepares_prewarm) fun clean₁ _ h₁ => ?_
  split
  · exact fun x => nomatch x
  · next ranges hbuild =>
    refine .bind (.perform fun _ => trivial) fun clean₂ views h₂ => ?_
    dsimp only
    split
    · next hnone =>
      apply cacheSpec_noProxies
      intro hclean
      exact (h₂.1 hclean).2.assigned hnone
    · next hne =>
      have hlen : (PoolView.distributeProxies views ranges.length args.pool args.pin args.weighted
          args.excludeWindow).length = ranges.length :=
        PoolView.length_distributeProxies.resolve_right fun h => hne h.2.2
      have hsplit := fun hclean => splitting_of_buildRanges (h (h₁ (h₂.1 hclean).1)) hn hsel
        hbuild hlen
      refine .bind (cacheSpec_rebalance (fun hclean => (hsplit hclean).1) fun hclean =>
        (hsplit hclean).2) fun clean₃ out h₃ => ?_
      split
      · exact fun x => nomatch x
      · next rs as =>
        exact cacheSpec_fetchChunks hrange hrep fun hclean => h₃ hclean rs as rfl

theorem cacheSpec_dispatch (hrange : args.clientRange = req.clientRange) (hrep : rep args.url body)
    {requestProxy : Option Url} {info : HeadInfo}
    (h : clean → ∀ n, info.splittable = some n → n = body.length) :
    CacheSpec rep req body (dispatch args requestProxy info) (Fitting rep args) clean := by
  unfold dispatch
  split
  · exact Fitting.error
  · exact cacheSpec_fetchFallback
  · split
    · exact cacheSpec_fetchFallback
    · next n hsplit =>
      have hn : n ≠ 0 := by
        rintro rfl
        unfold HeadInfo.splittable at hsplit
        split at hsplit
        · simp [Option.filter_eq_some_iff] at hsplit
        · cases hsplit
      split
      · exact Fitting.error
      · next w hsel => exact cacheSpec_splitWindow hrange hrep hn hsel fun hclean => h hclean n hsplit

theorem cacheSpec_handleInner (hrange : args.clientRange = req.clientRange)
    (hrep : rep args.url body) :
    CacheSpec rep req body (handleInner args) (Fitting rep args) clean := by
  unfold handleInner
  refine .bind (cacheSpec_of_preparing prepares_pickRequestProxy) fun clean₁ requestProxy h₁ => ?_
  refine .bind cacheSpec_resolveContentInfo fun clean₂ r h₂ => ?_
  split
  · exact Fitting.error
  · next info => exact cacheSpec_dispatch hrange hrep fun hclean n => (h₂ hclean).2 info n rfl

end Dispatch

section Handler

variable {rep : Url → Bytes → Prop} {req : ClientRequest} {body : Bytes} {clean : Prop}
  {cfg : RequestConfig} {url : Url} {rid : String}

theorem Response.Untagged.not_fromStore {r : Response} (h : r.Untagged) : ¬ r.FromStore := by
  rintro ⟨tag, -, hmem⟩
  exact h _ hmem rfl

theorem answersComplete_of_untagged {r : Response} (h : r.Untagged) :
    AnswersComplete rep url (.response r) := fun hstore => absurd hstore h.not_fromStore

theorem answersComplete_timedOut : AnswersComplete rep url (timedOut cfg rid) :=
  answersComplete_of_untagged (by simp [Response.Untagged, Response.ofText])

theorem cacheSpec_recover {exc : PyExc} :
    CacheSpec rep req body (recover cfg rid exc) (fun _ => AnswersComplete rep url) clean := by
  unfold recover
  split
  · exact answersComplete_timedOut
  · split
    · refine .bind (.perform fun _ => trivial) fun clean₁ passed h₁ => ?_
      split
      · exact answersComplete_timedOut
      · trivial
    · trivial
  · exact answersComplete_of_untagged (by simp [Response.Untagged, Response.ofText])

theorem cacheSpec_storeResponse {r : Response}
    (h : clean → req.method = "GET" → Complete rep url ⟨r.status, r.body, r.dict⟩) :
    CacheSpec rep req body (storeResponse req url r) (fun _ _ => True) clean := by
  unfold storeResponse
  split
  · next hget =>
    refine .bind (.perform fun _ hclean => h hclean hget) fun clean₁ _ h₁ => ?_
    refine KeepsWith.mono (fun _ _ _ => trivial) (CacheSpec.perform ?_)
    exact fun _ hclean => h (h₁.1 hclean).1 hget
  · trivial

theorem cacheSpec_sendStream {plan : StreamPlan} :
    CacheSpec rep req body (sendStream plan) (fun _ _ => True) clean := by
  unfold sendStream
  split
  · trivial
  · exact .bind (.perform fun _ => trivial) fun _ _ _ => trivial

theorem cacheSpec_finish {args : InnerArgs} (hmethod : args.method = req.method)
    (hurl : args.url = url) {outcome : Outcome} (h : Fitting rep args clean (.ok outcome)) :
    CacheSpec rep req body (finish req url rid outcome) (fun _ r =>
      ∀ reply, r = .ok reply → AnswersComplete rep url reply) clean := by
  unfold finish
  split
  · refine .bind cacheSpec_sendStream fun clean₁ r _ => ?_
    split
    · intro reply hreply
      cases hreply
    · intro reply hreply
      cases hreply
      trivial
  · next r =>
    obtain ⟨huntagged, hfit⟩ := h r rfl
    have hput : clean → req.method = "GET" → Complete rep url ⟨r.status, r.body, r.dict⟩ :=
      fun hclean hget => hurl ▸ hfit hclean (hmethod.trans hget)
    refine .bind (cacheSpec_storeResponse hput) fun clean₁ _ _ => ?_
    intro reply hreply
    cases hreply
    apply answersComplete_of_untagged
    intro header hmem
    rcases List.mem_append.mp hmem with hmem | hmem
    · exact huntagged header hmem
    · rw [List.mem_singleton.mp hmem]
      exact (by decide : "X-Request-ID" ≠ "X-Cache")

theorem cacheSpec_respond {args : InnerArgs} (hmethod : args.method = req.method)
    (hurl : args.url = url) {result : Except PyExc Outcome} (h : Fitting rep args clean result) :
    CacheSpec rep req body (respond cfg req url rid result) (fun _ => AnswersComplete rep url)
      clean := by
  unfold respond
  split
  · exact cacheSpec_recover
  · refine .bind (cacheSpec_finish hmethod hurl h) fun clean₁ r hr => ?_
    split
    · exact hr _ rfl
    · trivial
    · exact cacheSpec_recover

theorem cacheSpec_serve (hrep : rep url body) {chunkSize : Int} {reqBody : Option Bytes} :
    CacheSpec rep req body (serve cfg req url rid chunkSize reqBody)
      (fun _ => AnswersComplete rep url) clean := by
  unfold serve
  refine .bind (cacheSpec_handleInner rfl hrep) fun clean₁ result h₁ => ?_
  exact cacheSpec_respond rfl rfl h₁

def Answered (rep : Url → Bytes → Prop) (url : Url) (r : Except PyExc (Option Response)) : Prop :=
  ∀ resp, r = .ok (some resp) → AnswersComplete rep url (.response resp)

theorem answersComplete_fromCache {r : Cached} {tag : String} (h : Complete rep url r) :
    AnswersComplete rep url (.response (fromCache r tag rid)) := fun _ => h

theorem cacheSpec_serveL1 {cached : Cached} (h : Complete rep url cached) :
    CacheSpec rep req body (serveL1 cfg req url rid cached) (fun _ r =>
      ∀ resp, r = .ok resp → AnswersComplete rep url (.response resp)) clean := by
  have hserve : ∀ tag resp, Except.ok (fromCache cached tag rid) = (.ok resp : Except PyExc _) →
      AnswersComplete rep url (.response resp) := by
    intro tag resp hresp
    cases hresp
    exact answersComplete_fromCache h
  unfold serveL1
  refine .bind (.perform fun _ => trivial) fun clean₁ validators h₁ => ?_
  dsimp only
  split
  · exact hserve _
  · rw [revalidationGet, within_bind, bind_assoc]
    refine .bind .within fun clean₂ pick h₂ => ?_
    refine .bind .ask fun clean₃ r h₃ => ?_
    split
    · split
      · exact hserve _
      · exact nofun
    · next resp =>
      split
      · exact hserve _
      · split
        · next hstatus =>
          refine .bind (.perform ?_) fun clean₄ _ _ => ?_
          · exact fun _ hclean => ⟨rfl, (h₃ hclean).2.honest hstatus⟩
          · intro resp' hresp
            cases hresp
            rintro ⟨tag, htag, hmem⟩
            obtain rfl : tag = "REVALIDATED" := by simpa [fromCache] using hmem
            exact absurd htag (by decide)
        · exact hserve _

theorem cacheSpec_serveL2 :
    CacheSpec rep req body (serveL2 url rid) (fun _ => Answered rep url) clean := by
  unfold serveL2
  refine .bind (.perform fun _ => trivial) fun clean₁ hit h₁ => ?_
  split
  · exact nofun
  · exact nofun
  · next cached =>
    have hcached : Complete rep url cached := h₁.2
    refine .bind (.perform fun _ _ => hcached) fun clean₂ _ _ => ?_
    intro resp hresp
    cases hresp
    exact answersComplete_fromCache hcached

theorem cacheSpec_serveCached :
    CacheSpec rep req body (serveCached cfg req url rid) (fun _ => Answered rep url) clean := by
  unfold serveCached
  split
  · refine .bind (.perform fun _ => trivial) fun clean₁ hit h₁ => ?_
    split
    · next cached =>
      refine .bind (cacheSpec_serveL1 h₁.2) fun clean₂ r h₂ => ?_
      split
      · intro resp hresp
        cases hresp
        exact h₂ _ rfl
      · exact nofun
    · exact cacheSpec_serveL2
  · exact nofun

/-- A clean request for a url puts only complete representations of it, and what it answers from a
store is one. -/
theorem cacheSpec_handleRequest {sizer : Option Int}
    (hrep : ∀ url, truthy req.url = some url → rep url body) :
    CacheSpec rep req body (handleRequest cfg req rid sizer)
      (fun _ => AnswersComplete rep ((truthy req.url).getD "")) clean := by
  unfold handleRequest
  split
  · exact answersComplete_of_untagged (by simp [Response.Untagged, Response.ofText])
  · next url hurl =>
    rw [hurl, Option.getD_some]
    split
    · unfold handleUrl
      refine .bind cacheSpec_serveCached fun clean₁ r h₁ => ?_
      split
      · trivial
      · exact h₁ _ rfl
      · have hbody : CacheSpec rep req body (readBody req) (fun _ _ => True) clean₁ := by
          unfold readBody
          split
          · refine .bind (.perform fun _ => trivial) fun _ r _ => ?_
            split <;> trivial
          · trivial
        refine .bind hbody fun clean₂ r _ => ?_
        split
        · trivial
        · exact cacheSpec_serve (hrep url hurl)
    · exact answersComplete_of_untagged (by simp [Response.Untagged, Response.ofText])

end Handler

end ProxySplit
