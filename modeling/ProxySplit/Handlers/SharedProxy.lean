import ProxySplit.Drawing
import ProxySplit.Handlers.ChunkStart
import ProxySplit.Handlers.MethodBody
import ProxySplit.Handlers.Resizing

namespace ProxySplit

open Lib Prog

def StartsShared : RequestEffect → Prop
  | .gather _ _ jobs | .stream _ jobs => Shared (jobs.map ChunkJob.proxyUrl)
  | _ => True

instance (assigned : List Url) : Decidable (Shared assigned) :=
  inferInstanceAs (Decidable (∀ p ∈ assigned, ∀ q ∈ assigned, p = q))

instance (e : RequestEffect) : Decidable (StartsShared e) :=
  match e with
  | .gather _ _ jobs | .stream _ jobs =>
    inferInstanceAs (Decidable (Shared (jobs.map ChunkJob.proxyUrl)))
  | .fetch .. | .heads .. | .readPool _ | .prewarm .. | .distribute .. | .chunkSizes .. | .diverge
  | .readBody | .deadline | .cacheGet _ | .cacheValidators _ | .cachePut .. | .diskGet _
  | .diskPut .. => isTrue trivial

/-- The proxies are distributed over the pool in `views`, and sized by `size`. -/
def Distributes (views : Nat → PoolView) (size : List Url → Int) :
    (e : RequestEffect) → RequestAnswer e → Prop
  | .distribute .., answer => answer = views
  | .chunkSizes assigned .., sizes => sizes = sizesOf size assigned
  | _, _ => True

/-- Whatever is drawn for the distribution, all chunks of the request start with the same proxy. -/
def SharesProxy (cfg : RequestConfig) (req : ClientRequest) (url : Url) (rid : String)
    (chunkSize : Int) (requestProxy : Option Url) (info : HeadInfo) (views : Nat → PoolView)
    (size : List Url → Int) : Prop :=
  ∀ (draws : Nat → Draw) (tr : RequestTrace) (rest : Request Reply),
    Steps (behindProbe cfg req url rid chunkSize requestProxy info) tr rest →
      (∀ ev ∈ tr, Distributes (fun k => (views k).redraw (draws k)) size ev.1 ev.2) →
        ∀ ev ∈ tr, StartsShared ev.1

namespace InnerArgs

/-- The window that is asked for is cut into these ranges. -/
def SplitsInto (args : InnerArgs) (info : HeadInfo) (w : Window) (ranges : List ChunkRange) : Prop :=
  isExcluded args.exclusion args.url info.contentType = .ok false ∧
    ∃ contentLength, info.splittable = some contentLength ∧
      selectWindow contentLength args.clientRange = .ok w ∧
        buildRanges args.chunkSize w.start w.stop = some ranges

theorem SplitsInto.buildRanges_eq {args : InnerArgs} {info : HeadInfo} {w : Window}
    {ranges : List ChunkRange} (h : args.SplitsInto info w ranges) :
    buildRanges args.chunkSize w.start w.stop = some ranges := by
  obtain ⟨-, -, -, -, hbuild⟩ := h
  exact hbuild

def allot (args : InnerArgs) (w : Window) (size : List Url → Int) (ranges : List ChunkRange)
    (assigned : List Url) : Option (List ChunkRange × List Url) :=
  if args.perProxyChunks then
    applyPerProxyChunkSizes (sizesOf size assigned) ranges assigned w.start w.stop args.chunkSize
  else some (ranges, assigned)

/-- Where two proxies are available, no other one than that of the first chunk is ever offered to a later
chunk that there is.  With sizes by proxy, chunks of the first one may get to the end before. -/
def OneOffered (args : InnerArgs) (w : Window) (n : Nat) (views : Nat → PoolView)
    (size : List Url → Int) : Prop :=
  let available := (views 0).available args.pool
  let offered := fun k assigned => (views (k + 1)).offered args.pool
    (PoolView.lastOf assigned (min (available.length - 1) args.excludeWindow)).toFinset
    ((views 0).bestAvailable available)
  2 ≤ available.length → ∀ p ∈ offered 0 [], ∀ k, 0 < k → k < n →
    (args.perProxyChunks = true → offsetAfter size w.start w.stop p k ≤ w.stop) →
      ∀ q ∈ offered k (List.replicate k p), q = p

end InnerArgs

section Runs

variable {views : Nat → PoolView} {size : List Url → Int} {args : InnerArgs}

theorem keeps_rebalance_allot {w : Window} {ranges : List ChunkRange} {assigned : List Url} :
    Keeps (Distributes views size) Preparing (rebalance args w ranges assigned)
      fun out => out = args.allot w size ranges assigned := by
  unfold rebalance InnerArgs.allot
  split
  · rintro sizes rfl
    exact ⟨trivial, rfl⟩
  · rfl

theorem startsShared_of_startsSplit {e : RequestEffect}
    (h : StartsSplit (fun _ assigned => Shared assigned) args e) : StartsShared e := by
  have hjobs : ∀ {job : ChunkRange → Url → ChunkJob} {ranges assigned jobs},
      (∀ r p, (job r p).proxyUrl = p) → Shared assigned →
        chunkJobs job ranges assigned = .ok jobs → Shared (jobs.map ChunkJob.proxyUrl) := by
    intro job ranges assigned jobs hproxy hshared hjobs p hp q hq
    obtain ⟨j, hj, rfl⟩ := List.mem_map.mp hp
    obtain ⟨j', hj', rfl⟩ := List.mem_map.mp hq
    obtain ⟨r, a, ha, rfl⟩ := mem_of_chunkJobs hjobs hj
    obtain ⟨r', b, hb, rfl⟩ := mem_of_chunkJobs hjobs hj'
    rw [hproxy, hproxy]
    exact hshared a ha b hb
  cases e with
  | gather maxWorkers budget jobs =>
    obtain ⟨ranges, assigned, hshared, h, -⟩ := h
    exact hjobs (fun _ _ => rfl) hshared h
  | stream plan jobs =>
    obtain ⟨⟨n, ct, w, ranges, assigned, raceProxy, hshared, rfl⟩, h⟩ := h
    exact hjobs (fun _ _ => rfl) hshared h
  | _ => exact h.elim

variable {cfg : RequestConfig} {req : ClientRequest} {url : Url} {rid : String} {chunkSize : Int}
  {requestProxy : Option Url} {info : HeadInfo}

theorem startsShared_of_allot
    (h : ∀ w ranges, args.SplitsInto info w ranges → ∀ rs as, args.allot w size ranges
      (PoolView.distributeProxies views ranges.length args.pool args.pin args.weighted
        args.excludeWindow) = some (rs, as) → Shared as)
    (hargs : args = innerArgs cfg req url rid chunkSize req.passedBody) {tr : RequestTrace}
    {rest : Request Reply}
    (hs : Steps (behindProbe cfg req url rid chunkSize requestProxy info) tr rest)
    (htr : ∀ ev ∈ tr, Distributes views size ev.1 ev.2) : ∀ ev ∈ tr, StartsShared ev.1 := by
  have hS : ∀ contentLength w, isExcluded args.exclusion args.url info.contentType = .ok false →
      info.splittable = some contentLength → selectWindow contentLength args.clientRange = .ok w →
        Allots (Distributes views size) (fun _ assigned => Shared assigned) args w := by
    rintro contentLength w hexcl hlen hw ranges _ hbuild rfl
    refine keeps_rebalance_allot.mono (fun _ _ h => h) (fun _ _ _ h => h) fun out hout rs as hsome => ?_
    exact h w ranges ⟨hexcl, contentLength, hlen, hw, hbuild⟩ rs as (hout.symm.trans hsome)
  have hspec : StartSpec (Distributes views size)
      (StartsSplit (fun _ assigned => Shared assigned) args)
      (behindProbe cfg req url rid chunkSize requestProxy info) (fun _ _ => True) false := by
    unfold behindProbe
    rw [← hargs]
    exact (startSpec_dispatch (fun _ h => h) hS rfl).bind fun _ _ h =>
      startSpec_respond (fun _ h => h) h
  have hkeeps := hspec.always hs htr
  intro ev hev
  cases hstart : startsChunks ev.1 with
  | true => exact startsShared_of_startsSplit (of_startsChunks hkeeps hev hstart)
  | false =>
    obtain ⟨e, x⟩ := ev
    cases e with
    | gather | stream => cases hstart
    | _ => trivial

theorem of_keeps_pickRace {assigned : List Url} {n : Nat} {Q : Option Url → Prop}
    (h : Keeps (Distributes views size) (fun e _ => StartsShared e) (pickRace args assigned n) Q) :
    ∃ raceProxy, Q raceProxy := by
  unfold pickRace at h
  split at h
  · have h := keeps_within.mp h
    simp only [pickProxy, keeps_bind, keeps_call] at h
    exact ⟨_, (h (PoolView.viewOf []) trivial).2⟩
  · exact ⟨none, h⟩

theorem of_keeps_rebalance {w : Window} {ranges : List ChunkRange} {assigned : List Url}
    {Q : Option (List ChunkRange × List Url) → Prop}
    (h : Keeps (Distributes views size) (fun e _ => StartsShared e)
      (rebalance args w ranges assigned) Q) : Q (args.allot w size ranges assigned) := by
  unfold rebalance at h
  unfold InnerArgs.allot
  split at h
  · next hsizes =>
    rw [if_pos hsizes]
    simp only [keeps_bind, keeps_call] at h
    exact (h (sizesOf size assigned) rfl).2
  · next hsizes =>
    rw [if_neg hsizes]
    exact h

theorem shared_of_keeps_fetchChunks {contentLength : Int} {ct : String} {w : Window}
    {rs : List ChunkRange} {as : List Url} (hindex : rs.map ChunkRange.index = List.range rs.length)
    (hlen : as.length = rs.length)
    (h : Keeps (Distributes views size) (fun e _ => StartsShared e)
      (fetchChunks args contentLength ct w rs as) fun result =>
        Keeps (Distributes views size) (fun e _ => StartsShared e) (respond cfg req url rid result)
          fun _ => True) : Shared as := by
  have hjobs : ∀ job : ChunkRange → Url → ChunkJob, (∀ r p, (job r p).proxyUrl = p) →
      ∃ jobs, chunkJobs job rs as = .ok jobs ∧ jobs.map ChunkJob.proxyUrl = as := by
    intro job hjob
    rw [List.range_eq_range'] at hindex
    exact chunkJobs_of_indices hjob hindex (hlen.trans (Nat.zero_add _).symm)
  simp only [fetchChunks, keeps_bind] at h
  obtain ⟨raceProxy, h⟩ := of_keeps_pickRace h
  split at h
  · obtain ⟨jobs, hplan, hmap⟩ := hjobs (args.plan contentLength ct w rs as raceProxy).job
      fun _ _ => rfl
    have hplan' : (args.plan contentLength ct w rs as raceProxy).jobs = .ok jobs := hplan
    simp only [keeps_pure', respond, finish, sendStream, hplan', keeps_bind, keeps_call] at h
    have hstart := (h ⟨fun _ => none, fun _ _ => none, .ok (), by rintro _ ⟨⟩⟩ trivial).1
    rwa [StartsShared, hmap] at hstart
  · obtain ⟨jobs, hgather, hmap⟩ := hjobs args.chunkJob fun _ _ => rfl
    simp only [gatherChunks, hgather, keeps_bind, keeps_call] at h
    have hstart := (h ⟨fun _ => none, true, by rintro _ ⟨⟩, by rintro ⟨⟩⟩ trivial).1
    rwa [StartsShared, hmap] at hstart

theorem shared_of_card_le_one {assigned : List Url} (h : assigned.toFinset.card ≤ 1) :
    Shared assigned := fun p hp q hq =>
  Finset.card_le_one.mp h p (List.mem_toFinset.mpr hp) q (List.mem_toFinset.mpr hq)

theorem InnerArgs.shared_allot_of_card {w : Window} {ranges rs : List ChunkRange}
    {assigned as : List Url} (h : assigned.toFinset.card ≤ 1)
    (hallot : args.allot w size ranges assigned = some (rs, as)) : Shared as := by
  have has : as = assigned := by
    unfold allot applyPerProxyChunkSizes at hallot
    rw [if_pos h] at hallot
    split at hallot
    · cases hallot
      rfl
    · cases hallot
      rfl
  rw [has]
  exact shared_of_card_le_one h

theorem entries_of_allot {w : Window} {ranges rs : List ChunkRange} {assigned as : List Url}
    (hbuild : buildRanges args.chunkSize w.start w.stop = some ranges)
    (hlen : assigned.length = ranges.length)
    (h : args.allot w size ranges assigned = some (rs, as)) :
    rs.map ChunkRange.index = List.range rs.length ∧ as.length = rs.length := by
  have hindex := indexed_of_buildRanges hbuild
  unfold InnerArgs.allot at h
  split at h
  · exact ⟨indexed_of_applyPerProxyChunkSizes hindex h, length_of_applyPerProxyChunkSizes hlen h⟩
  · cases h
    exact ⟨hindex, hlen⟩

theorem shared_of_keeps (hargs : args = innerArgs cfg req url rid chunkSize req.passedBody)
    {w : Window} {ranges rs : List ChunkRange} {as : List Url} (hsplit : args.SplitsInto info w ranges)
    (hallot : args.allot w size ranges (PoolView.distributeProxies views ranges.length args.pool
      args.pin args.weighted args.excludeWindow) = some (rs, as))
    (h : Keeps (Distributes views size) (fun e _ => StartsShared e)
      (behindProbe cfg req url rid chunkSize requestProxy info) fun _ => True) : Shared as := by
  obtain ⟨hexcl, n, hn, hw, hbuild⟩ := hsplit
  simp only [behindProbe, ← hargs, dispatch, hexcl, hn, hw, splitWindow, hbuild, keeps_bind] at h
  have h := of_keeps_prewarm (fun _ => trivial) (fun _ => trivial) h
  simp only [keeps_call] at h
  have h := (h views rfl).2
  split at h
  · next hnone =>
    rw [hnone] at hallot
    exact InnerArgs.shared_allot_of_card (Nat.zero_le _) hallot
  · next hne =>
    have hlen : (PoolView.distributeProxies views ranges.length args.pool args.pin args.weighted
        args.excludeWindow).length = ranges.length :=
      PoolView.length_distributeProxies.resolve_right fun h => hne h.2.2
    obtain ⟨hindex, haslen⟩ := entries_of_allot hbuild hlen hallot
    rw [keeps_bind] at h
    have h := of_keeps_rebalance h
    rw [hallot] at h
    exact shared_of_keeps_fetchChunks hindex haslen h

end Runs

section Offers

theorem replicate_or_turn (p : Url) (l : List Url) :
    p :: l = List.replicate (l.length + 1) p ∨ ∃ j q bs, 0 < j ∧ j < (p :: l).length ∧ q ≠ p ∧
      p :: l = List.replicate j p ++ q :: bs := by
  induction l with
  | nil => exact .inl rfl
  | cons a l ih =>
    by_cases ha : a = p
    · subst ha
      rcases ih with heq | ⟨j, q, bs, hj, hlt, hne, heq⟩
      · left
        rw [List.length_cons, List.replicate_succ, ← heq]
      · refine .inr ⟨j + 1, q, bs, Nat.succ_pos j, Nat.succ_lt_succ hlt, hne, ?_⟩
        rw [heq]
        rfl
    · exact .inr ⟨1, a, l, Nat.one_pos, Nat.succ_lt_succ (Nat.succ_pos _), ha, rfl⟩

variable {args : InnerArgs} {w : Window} {ranges rs : List ChunkRange} {assigned as : List Url}
  {views : Nat → PoolView} {size : List Url → Int} {win : Int} {best : Option Url}

theorem chunkSize_pos_of_buildRanges (hbuild : buildRanges args.chunkSize w.start w.stop = some ranges)
    (hne : 0 < ranges.length) : 1 ≤ args.chunkSize := by
  by_contra hsize
  by_cases hle : w.start ≤ w.stop
  · rw [buildRanges, rangeLoop_eq_none (by omega) hle] at hbuild
    cases hbuild
  · rw [buildRanges_of_lt (not_le.mp hle)] at hbuild
    cases hbuild
    exact absurd hne (Nat.lt_irrefl 0)

theorem InnerArgs.shared_allot_iff {p q : Url} {j : Nat} {bs : List Url} (hj : 0 < j) (hne : q ≠ p)
    (hsize : 1 ≤ args.chunkSize) :
    (∀ rs as, args.allot w size ranges (List.replicate j p ++ q :: bs) = some (rs, as) → Shared as) ↔
      ¬ (args.perProxyChunks = true → offsetAfter size w.start w.stop p j ≤ w.stop) := by
  unfold allot
  by_cases hsizes : args.perProxyChunks = true
  · simp only [hsizes, if_true, true_implies, not_le]
    obtain ⟨rs, as, happly, hshared⟩ : ∃ rs as, applyPerProxyChunkSizes
        (sizesOf size (List.replicate j p ++ q :: bs)) ranges (List.replicate j p ++ q :: bs) w.start
          w.stop args.chunkSize = some (rs, as) ∧
        (Shared as ↔ w.stop < offsetAfter size w.start w.stop p j) :=
      shared_applyPerProxyChunkSizes hj hne hsize bs
    rw [← hshared]
    constructor
    · exact fun h => h rs as happly
    · intro h rs' as' happly'
      cases happly.symm.trans happly'
      exact h
  · refine iff_of_false (fun h => hne ?_) fun h => h fun hon => absurd hon hsizes
    refine h ranges _ (if_neg hsizes) q ?_ p ?_
    · exact List.mem_append_right _ (.head _)
    · exact List.mem_append_left _ (List.mem_replicate.mpr ⟨hj.ne', rfl⟩)

/-- Every assignment comes to one proxy exactly if no other one than the first is offered later on. -/
theorem shared_assigns_iff (hbuild : buildRanges args.chunkSize w.start w.stop = some ranges)
    (hbest : best.isSome) :
    (∀ rest, rest.length = ranges.length → PoolView.Assigns args.pool win best views [] rest →
      ∀ rs as, args.allot w size ranges rest = some (rs, as) → Shared as) ↔
    ∀ p ∈ (views 0).offered args.pool (PoolView.lastOf [] win).toFinset best, ∀ k, 0 < k →
      k < ranges.length →
        (args.perProxyChunks = true → offsetAfter size w.start w.stop p k ≤ w.stop) →
          ∀ q ∈ (views k).offered args.pool (PoolView.lastOf (List.replicate k p) win).toFinset best,
            q = p := by
  constructor
  · intro h p hp k
    induction k using Nat.strong_induction_on with
    | _ k ih =>
      intro hk hlt hbefore q hq
      -- before chunk `k` nothing but `p` is offered, so that it can be assigned to all of them
      have hfirsts : ∀ j < k, p ∈ (views j).offered args.pool
          (PoolView.lastOf (List.replicate j p) win).toFinset best := by
        intro j hj
        rcases Nat.eq_zero_or_pos j with rfl | hpos
        · exact hp
        · have honly := ih j hj hpos (hj.trans hlt) fun hon => offsetAfter_mono hj.le (hbefore hon)
          obtain ⟨a, ha⟩ := List.exists_mem_of_ne_nil _ (PoolView.offered_ne_nil hbest)
          exact honly a ha ▸ ha
      by_contra hne
      obtain ⟨bs, hlen, hassigns⟩ := PoolView.exists_assigns_turn hbest hlt hfirsts hq
      have hsize := chunkSize_pos_of_buildRanges hbuild (hk.trans hlt)
      exact (InnerArgs.shared_allot_iff hk hne hsize).mp (h _ hlen hassigns) hbefore
  · intro h rest hlen hassigns
    cases rest with
    | nil =>
      intro rs as hallot
      exact InnerArgs.shared_allot_of_card (Nat.zero_le _) hallot
    | cons p rest =>
      have hp := hassigns.1
      rcases replicate_or_turn p rest with heq | ⟨j, q, bs, hj, hlt, hne, heq⟩
      · intro rs as hallot
        refine InnerArgs.shared_allot_of_card ?_ hallot
        rw [heq, List.toFinset_replicate_of_ne_zero (Nat.succ_ne_zero _), Finset.card_singleton]
      · rw [hlen] at hlt
        rw [heq] at hassigns ⊢
        obtain ⟨-, hq, -⟩ := PoolView.assigns_append.mp hassigns
        have hsize := chunkSize_pos_of_buildRanges hbuild (hj.trans hlt)
        refine (InnerArgs.shared_allot_iff hj hne hsize).mpr fun hbefore => hne ?_
        exact h p hp j hj hlt hbefore q (by simpa using hq)

theorem InnerArgs.oneOffered_iff (hpin : truthy args.pin = none)
    (hbuild : buildRanges args.chunkSize w.start w.stop = some ranges) :
    (∀ draws : Nat → Draw, ∀ rs as, args.allot w size ranges
      (PoolView.distributeProxies (fun k => (views k).redraw (draws k)) ranges.length args.pool args.pin
        args.weighted args.excludeWindow) = some (rs, as) → Shared as) ↔
    args.OneOffered w ranges.length views size := by
  by_cases htwo : 2 ≤ ((views 0).available args.pool).length
  · have hbest : ((views 0).bestAvailable ((views 0).available args.pool)).isSome := by
      apply PoolView.isSome_bestAvailable
      intro hnil
      simp [hnil] at htwo
    refine (PoolView.forall_draws_iff hpin htwo (P := fun assigned => ∀ rs as,
      args.allot w size ranges assigned = some (rs, as) → Shared as)).trans ?_
    refine (shared_assigns_iff hbuild hbest).trans ?_
    exact ⟨fun h _ => h, fun h => h htwo⟩
  · refine iff_of_true (fun draws rs as hallot => ?_) fun h => absurd h htwo
    have hcard : (PoolView.distributeProxies (fun k => (views k).redraw (draws k)) ranges.length
        args.pool args.pin args.weighted args.excludeWindow).toFinset.card ≤ 1 :=
      PoolView.card_distributeProxies_le_one hpin htwo
    exact shared_allot_of_card hcard hallot

end Offers

/-- Without a pin all chunks of a request start with the same proxy whatever is drawn, exactly if no
other one than that of the first chunk is offered to any later chunk.  It makes no difference whether the
request is in request-proxy mode, and which proxy was picked for it. -/
theorem sharesProxy_iff (cfg : RequestConfig) (req : ClientRequest) (url : Url) (rid : String)
    (chunkSize : Int) (requestProxy : Option Url) (info : HeadInfo) (views : Nat → PoolView)
    (size : List Url → Int) (hpin : truthy req.pin = none) :
    SharesProxy cfg req url rid chunkSize requestProxy info views size ↔
      ∀ w ranges, (innerArgs cfg req url rid chunkSize req.passedBody).SplitsInto info w ranges →
        (innerArgs cfg req url rid chunkSize req.passedBody).OneOffered w ranges.length views size := by
  obtain ⟨args, hargs⟩ : ∃ args, args = innerArgs cfg req url rid chunkSize req.passedBody := ⟨_, rfl⟩
  have hnone : truthy args.pin = none := by rw [hargs]; exact hpin
  rw [← hargs]
  constructor
  · intro h w ranges hsplit
    refine (InnerArgs.oneOffered_iff hnone hsplit.buildRanges_eq).mp fun draws rs as hallot => ?_
    exact shared_of_keeps hargs hsplit hallot (keeps_iff_steps_if.mpr (h draws))
  · intro h draws tr rest hs htr
    refine startsShared_of_allot (fun w ranges hsplit => ?_) hargs hs htr
    exact (InnerArgs.oneOffered_iff hnone hsplit.buildRanges_eq).mpr (h w ranges hsplit) draws

def inRequestMode : RequestConfig := { inTwoChunks with chunkProxy := false }

def fileInfo : HeadInfo := ⟨some 4, true, "text/plain"⟩

theorem sharesProxy_single : SharesProxy inRequestMode (download []) "http://origin.example/file" "-" 2
    (some "http://10.0.0.1:8080") fileInfo
    (fun _ => PoolView.viewOf ["http://10.0.0.1:8080"]) fun _ => 2 := by
  have hone : ¬ 2 ≤ ((PoolView.viewOf ["http://10.0.0.1:8080"]).available
    none).length := by decide +kernel
  exact (sharesProxy_iff _ _ _ _ _ _ _ _ _ (by decide)).mpr fun w ranges _ htwo => absurd htwo hone

/-- The two proxies of a pool take turns with the chunks of a request. -/
theorem proxies_take_turns : ¬ SharesProxy inRequestMode (download []) "http://origin.example/file" "-" 2
    (some "http://10.0.0.1:8080") fileInfo (fun _ => PoolView.viewOf
      ["http://10.0.0.1:8080", "http://10.0.0.2:8080"]) fun _ => 2 := by
  intro h
  have hrun : ((behindProbe inRequestMode (download []) "http://origin.example/file" "-" 2
      (some "http://10.0.0.1:8080") fileInfo).execWith (fileFrom
        ["http://10.0.0.1:8080", "http://10.0.0.2:8080"]
          (answering (.new 5 60 3600) [0, 1]))).any
      (fun run => run.1.any fun ev => ¬ StartsShared ev.1) = true := by
    decide +kernel
  obtain ⟨run, hsome, hany⟩ := (Option.any_eq_true _ _).mp hrun
  obtain ⟨hruns, hevents⟩ := execWith_spec hsome
  obtain ⟨ev, hev, hnot⟩ := List.any_eq_true.mp hany
  refine of_decide_eq_true hnot (h (fun _ => ⟨0, 0, by decide⟩) _ _ hruns.steps ?_ ev hev)
  rintro ⟨e, x⟩ hmem
  have hx := hevents _ hmem
  cases e with
  | distribute =>
    cases hx
    rfl
  | chunkSizes =>
    cases hx
    rfl
  | _ => trivial

end ProxySplit
