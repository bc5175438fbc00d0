import ProxySplit.Handlers.Preparation
import ProxySplit.Streaming.Order

namespace ProxySplit

open Lib Prog

namespace StreamPlan

structure Announces (plan : StreamPlan) (total : Int) (w : Window) : Prop where
  status : plan.status = if w.isPartial then 206 else 200
  contentLength : dictGet plan.headers "Content-Length" = some (toString w.length)
  contentRange : dictGet plan.headers "Content-Range" =
    if w.isPartial then some s!"bytes {w.start}-{w.stop}/{total}" else none

/-- The fetch of chunk `i` returned the bytes of its range. -/
def Honest (plan : StreamPlan) (resource : Bytes) (i : Nat) (res : ChunkResult) : Prop :=
  ∃ r, plan.ranges[i]? = some r ∧ res.data = slice resource r.start r.stop

def firstChunks (plan : StreamPlan) (resource : Bytes) (k : Nat) : Bytes :=
  (plan.ranges.take k).flatMap fun r => slice resource r.start r.stop

/-- What was written up to a state of the stream are the first chunks of the window, and all of it once the
stream ended without a failure. -/
structure Delivers (plan : StreamPlan) (w : Window) (resource : Bytes)
    (s : Stream plan.config) : Prop where
  boundary : ∃ k ≤ plan.ranges.length, s.written = plan.firstChunks resource k
  isPrefix : s.written <+: slice resource w.start w.stop
  complete : s.writer = .finished none → s.written = slice resource w.start w.stop

def Aligned (plan : StreamPlan) : Prop :=
  ∃ jobs, plan.jobs = .ok jobs ∧
    List.Forall₂ (fun r j => ∃ p ∈ plan.assigned, j = plan.job r p) plan.ranges jobs

end StreamPlan

structure Response.Presents (r : Response) (contentLength : Int) (w : Window) : Prop where
  status : r.status = if w.isPartial then 206 else 200
  contentRange : dictGet r.headers "Content-Range" =
    if w.isPartial then some s!"bytes {w.start}-{w.stop}/{contentLength}" else none
  length : (r.body.length : Int) = w.length

/-- The window that the client asked for is selected, and what comes of the request is that part of the
resource. -/
def Delivered (args : InnerArgs) (contentLength : Int) (out : Except PyExc Outcome) : Prop :=
  ∃ w : Window, selectWindow contentLength args.clientRange = .ok w ∧
    w.Selected contentLength args.clientRange ∧
    (args.useStreaming = true → ∃ plan : StreamPlan, out = .ok (.stream plan) ∧
      plan.Announces contentLength w ∧ plan.Aligned ∧
      ∀ resource : Bytes, resource.length = contentLength → ∀ s,
        (Stream.machine plan.config).Reach (Stream.Returns (plan.Honest resource)) s →
          plan.Delivers w resource s) ∧
    (args.useStreaming = false → ∀ r, out = .ok (.response r) →
      r.status = 502 ∨ r.Presents contentLength w)

def Assigned : (e : RequestEffect) → RequestAnswer e → Prop
  | .distribute n pool pin weighted win, views =>
    PoolView.distributeProxies views n pool pin weighted win ≠ []
  | _, _ => True

instance : (e : RequestEffect) → (x : RequestAnswer e) → Decidable (Assigned e x)
  | .distribute _ _ _ _ _, _ => inferInstanceAs (Decidable (_ ≠ _))
  | .fetch .., _ | .heads .., _ | .readPool _, _ | .prewarm .., _ | .chunkSizes .., _
  | .gather .., _ | .stream .., _ | .diverge, _ | .readBody, _ | .deadline, _ | .cacheGet _, _
  | .cacheValidators _, _ | .cachePut .., _ | .diskGet _, _ | .diskPut .., _ =>
    inferInstanceAs (Decidable True)

def SizesPositive : (e : RequestEffect) → RequestAnswer e → Prop
  | .chunkSizes .., sizes => ∀ i, 1 ≤ sizes i
  | _, _ => True

section Plan

variable {plan : StreamPlan} {w : Window} {resource : Bytes}

theorem firstChunks_eq {k : Nat} {results : Nat → Option Fetched}
    (h : ∀ i < k, ∃ res, results i = some (.ok res) ∧ plan.Honest resource i res) :
    ((List.range k).flatMap fun i => Stream.dataOf (results i)) = plan.firstChunks resource k := by
  induction k with
  | zero => rfl
  | succ k ih =>
    obtain ⟨res, hres, r, hr, hdata⟩ := h k k.lt_succ_self
    have hrest := ih fun i hi => h i (Nat.lt_succ_of_lt hi)
    rw [StreamPlan.firstChunks] at hrest ⊢
    rw [List.range_succ, List.flatMap_append, hrest, List.take_add_one, hr, List.flatMap_append]
    simp [hres, Stream.dataOf, hdata]

theorem flatMap_bounds (rs : List ChunkRange) :
    (rs.map ChunkRange.bounds).flatMap (fun t => slice resource t.1 t.2) =
      rs.flatMap fun r => slice resource r.start r.stop := List.flatMap_map ..

theorem Partition.firstChunks_prefix (h : Partition w.start w.stop plan.ranges) (hw : 0 ≤ w.start)
    (k : Nat) : plan.firstChunks resource k <+: slice resource w.start w.stop := by
  have hprefix := h.tiles.take_flatMap_slice (l := resource) hw k
  rwa [← List.map_take, flatMap_bounds] at hprefix

theorem Partition.allChunks (h : Partition w.start w.stop plan.ranges) (hw : 0 ≤ w.start) :
    plan.firstChunks resource plan.ranges.length = slice resource w.start w.stop := by
  rw [StreamPlan.firstChunks, List.take_length, ← flatMap_bounds]
  exact h.tiles.flatMap_slice hw

theorem delivers_of_reach (hranges : Partition w.start w.stop plan.ranges) (hw : 0 ≤ w.start)
    (hn : plan.numChunks = plan.ranges.length) (hrace : plan.raceFirstChunk = false)
    {s : Stream plan.config}
    (h : (Stream.machine plan.config).Reach (Stream.Returns (plan.Honest resource)) s) :
    plan.Delivers w resource s := by
  obtain ⟨k, hk, hhonest⟩ := Stream.written_of_reach (by simp [StreamPlan.config, hrace]) h
  have hwritten := hk.written_eq.trans (firstChunks_eq hhonest)
  refine ⟨⟨k, hn ▸ hk.le, hwritten⟩, ?_, ?_⟩
  · rw [hwritten]
    exact hranges.firstChunks_prefix hw k
  · intro hdone
    have hat := hk.atChunk
    rw [hdone] at hat
    have hall : k = plan.ranges.length := Eq.trans hat hn
    rw [hwritten, hall, hranges.allChunks hw]

theorem announces_plan (args : InnerArgs) (contentLength : Int) (ct : String) (w : Window)
    (ranges : List ChunkRange) (assigned : List Url) (raceProxy : Option Url) :
    (args.plan contentLength ct w ranges assigned raceProxy).Announces contentLength w := by
  constructor
  · rfl
  · simp [dictGet, StreamPlan.headers, InnerArgs.plan]
  · cases hp : w.isPartial <;> cases hr : (args.raceFirstChunk && raceProxy.isSome) <;>
      simp [dictGet, StreamPlan.headers, InnerArgs.plan, hp, hr, StreamPlan.contentRange]

end Plan

section Dispatch

variable {args : InnerArgs} {contentLength : Int} {ct : String} {w : Window}

theorem assemble_presents (ranges : List ChunkRange) (results : List (Except PyExc ChunkResult))
    {r : Response} (h : assemble args contentLength ct w ranges results = .ok (.response r)) :
    r.status = 502 ∨ r.Presents contentLength w := by
  unfold assemble at h
  split at h
  · split at h
    · cases h; exact .inl rfl
    · cases h
  · dsimp only at h
    split at h
    · cases h; exact .inl rfl
    · split at h
      · cases h
      · split at h
        · cases h; exact .inl rfl
        · next hlen =>
          cases h
          refine .inr ⟨rfl, ?_, not_not.mp hlen⟩
          cases hp : w.isPartial <;> simp [dictGet, StreamPlan.contentRange]

theorem keeps_fetchChunks {rely : (e : RequestEffect) → RequestAnswer e → Prop}
    (hsome : selectWindow contentLength args.clientRange = .ok w)
    (hsel : w.Selected contentLength args.clientRange) (hw : 0 ≤ w.start) (hrace : args.raceFirstChunk = false)
    {ranges : List ChunkRange} {assigned : List Url} (hranges : Partition w.start w.stop ranges) (hlen : assigned.length = ranges.length) :
    Keeps rely (fun _ _ => True) (fetchChunks args contentLength ct w ranges assigned)
      (Delivered args contentLength) := by
  simp only [fetchChunks, keeps_bind]
  have hpick : pickRace args assigned ranges.length = Pure.pure none := by simp [pickRace, hrace]
  rw [hpick, keeps_pure']
  split
  · next hstream =>
    refine ⟨w, hsome, hsel, fun _ => ?_, fun h => absurd hstream (by simp [h])⟩
    refine ⟨_, rfl, announces_plan .., ?_, ?_⟩
    · exact chunkJobs_eq hranges hlen
    · intro resource _ s hs
      exact delivers_of_reach hranges hw rfl (by simp [InnerArgs.plan]) hs
  · next hstream =>
    have hnot : args.useStreaming = false := by simpa using hstream
    unfold gatherChunks
    split
    · exact ⟨w, hsome, hsel, fun h => absurd h hstream, by rintro _ r ⟨⟩⟩
    · simp only [keeps_bind, keeps_call]
      intro run _
      refine ⟨trivial, ?_⟩
      split
      · exact ⟨w, hsome, hsel, fun h => absurd h hstream, by rintro _ r ⟨⟩⟩
      · exact ⟨w, hsome, hsel, fun h => absurd h hstream, fun _ r hr => assemble_presents _ _ hr⟩

theorem keeps_splitWindow (hL : 0 < contentLength)
    (hsome : selectWindow contentLength args.clientRange = .ok w)
    (hsel : w.Selected contentLength args.clientRange) (hsize : 1 ≤ args.chunkSize)
    (hrace : args.raceFirstChunk = false) :
    Keeps (fun e x => Assigned e x ∧ SizesPositive e x) (fun _ _ => True)
      (splitWindow args contentLength ct w) (Delivered args contentLength) := by
  obtain ⟨hstart, hle, -⟩ := hsel.bounds hL
  have hwindow : w.start ≤ w.stop + 1 := by omega
  obtain ⟨ranges, hbuild, hranges⟩ := buildRanges_spec hsize hwindow
  simp only [splitWindow, keeps_bind]
  refine Keeps.mono (fun _ _ h => h) (fun _ _ _ _ => trivial) ?_ prepares_prewarm
  intro _ _
  simp only [hbuild, keeps_bind, keeps_call]
  intro views hviews
  refine ⟨trivial, ?_⟩
  rw [if_neg hviews.1]
  have hlen : (PoolView.distributeProxies views ranges.length args.pool args.pin args.weighted
      args.excludeWindow).length = ranges.length :=
    PoolView.length_distributeProxies.resolve_right fun h => hviews.1 h.2.2
  rw [keeps_bind, rebalance]
  split
  · simp only [keeps_bind, keeps_call]
    intro sizes hsizes
    refine ⟨trivial, ?_⟩
    obtain ⟨rs, as, happly, hrs, has⟩ :=
      applyPerProxyChunkSizes_spec hsize hsizes.2 hwindow hranges hlen
    simp only [happly, keeps_pure']
    exact keeps_fetchChunks hsome hsel hstart hrace hrs has
  · exact keeps_fetchChunks hsome hsel hstart hrace hranges hlen

end Dispatch

theorem keeps_dispatch (args : InnerArgs) (requestProxy : Option Url) {contentLength : Int} {ct : String}
    (hL : 0 < contentLength) (hexcl : isExcluded args.exclusion args.url ct = .ok false)
    (hsize : 1 ≤ args.chunkSize) (hrace : args.raceFirstChunk = false)
    (hread : ¬ Unreadable args.clientRange) :
    Keeps (fun e x => Assigned e x ∧ SizesPositive e x) (fun _ _ => True)
      (dispatch args requestProxy ⟨some contentLength, true, ct⟩) (Delivered args contentLength) := by
  have hsplit : HeadInfo.splittable ⟨some contentLength, true, ct⟩ = some contentLength := by
    simp [HeadInfo.splittable, Option.filter, hL.ne']
  simp only [dispatch, hexcl, hsplit]
  rcases selectWindow_spec contentLength args.clientRange with ⟨-, w, hw, hsel⟩ | ⟨hun, -⟩
  · simp only [hw]
    exact keeps_splitWindow hL hw hsel hsize hrace
  · exact absurd hun hread

theorem runs_dispatch_of_unreadable {args : InnerArgs} (requestProxy : Option Url) {contentLength : Int}
    {ct : String} (hL : 0 < contentLength) (hexcl : isExcluded args.exclusion args.url ct = .ok false)
    (h : Unreadable args.clientRange) :
    ∃ msg, Runs (dispatch args requestProxy ⟨some contentLength, true, ct⟩) [] (.error (.valueError msg)) := by
  have hsplit : HeadInfo.splittable ⟨some contentLength, true, ct⟩ = some contentLength := by
    simp [HeadInfo.splittable, Option.filter, hL.ne']
  rcases selectWindow_spec contentLength args.clientRange with ⟨hread, -⟩ | ⟨-, msg, herr⟩
  · exact absurd h hread
  · refine ⟨msg, ?_⟩
    simp only [dispatch, hexcl, hsplit, herr]
    exact .pure

theorem not_delivered_of_unreadable {args : InnerArgs} {contentLength : Int}
    (h : Unreadable args.clientRange) (out : Except PyExc Outcome) :
    ¬ Delivered args contentLength out := by
  rintro ⟨w, hw, -⟩
  rcases selectWindow_spec contentLength args.clientRange with ⟨hread, -⟩ | ⟨-, msg, herr⟩
  · exact hread h
  · rw [herr] at hw
    cases hw

/-- The part of a resource that the client asked for is delivered byte for byte, whatever the chunk
sizes, the assigned proxies and the order in which the fetches of the chunks end, if and only if `int`
takes the numbers of the `Range` header. -/
theorem delivers_iff (args : InnerArgs) (requestProxy : Option Url) (contentLength : Int) (ct : String)
    (hL : 0 < contentLength) (hexcl : isExcluded args.exclusion args.url ct = .ok false)
    (hsize : 1 ≤ args.chunkSize) (hrace : args.raceFirstChunk = false)
    (tr : RequestTrace) (out : Except PyExc Outcome)
    (hr : Runs (dispatch args requestProxy ⟨some contentLength, true, ct⟩) tr out)
    (hassigned : ∀ ev ∈ tr, Assigned ev.1 ev.2) (hsizes : ∀ ev ∈ tr, SizesPositive ev.1 ev.2) :
    Delivered args contentLength out ↔ ¬ Unreadable args.clientRange := by
  constructor
  · exact fun h hun => not_delivered_of_unreadable hun out h
  · intro hread
    have hkeeps := keeps_dispatch args requestProxy hL hexcl hsize hrace hread
    exact (hkeeps.run hr fun ev hev => ⟨hassigned ev hev, hsizes ev hev⟩).2

def resumeArgs : InnerArgs where
  url := "http://origin.example/file"
  reqHeaders := []
  body := none
  method := "GET"
  chunkSize := 2
  maxWorkers := 10
  chunkRetries := 2
  chunkProxy := true
  pool := none
  pin := none
  weighted := true
  useStreaming := true
  prefetchAhead := 2
  raceFirstChunk := false
  excludeWindow := 3
  exclusion := .none
  streamBufferMb := 64
  retryBudgetTotal := 0
  perProxyChunks := true
  chunkSizeMin := 1
  chunkSizeMax := 4
  prewarmUrl := ""
  prewarmTopN := 5
  rid := "-"
  clientRange := some "bytes=2-"

def twoProxies : (e : RequestEffect) → Option (RequestAnswer e)
  | .distribute .. => some fun _ =>
    PoolView.viewOf ["http://10.0.0.1:8080", "socks5://10.0.0.2:1080"]
  | .chunkSizes .. => some fun i => if i = 1 then 1 else 2
  | _ => none

theorem delivers_resume : ∃ tr out,
    Runs (dispatch resumeArgs none ⟨some 7, true, "text/plain"⟩) tr out ∧
      Delivered resumeArgs 7 out := by
  have hsome : ((dispatch resumeArgs none ⟨some 7, true, "text/plain"⟩).execWith
      twoProxies).isSome = true := by decide +kernel
  obtain ⟨run, hrun⟩ := Option.isSome_iff_exists.mp hsome
  obtain ⟨hruns, hevents⟩ := execWith_spec hrun
  have hassigned : ∀ ev ∈ run.1, Assigned ev.1 ev.2 := by
    have hall : ((dispatch resumeArgs none ⟨some 7, true, "text/plain"⟩).execWith
        twoProxies).all (fun run => run.1.all fun ev => Assigned ev.1 ev.2) = true := by
      decide +kernel
    simpa [hrun] using hall
  have hsizes : ∀ ev ∈ run.1, SizesPositive ev.1 ev.2 := by
    rintro ⟨e, x⟩ hev
    have hx := hevents _ hev
    cases e with
    | chunkSizes => cases hx; intro i; dsimp only; split <;> omega
    | _ => trivial
  have hread : ¬ Unreadable resumeArgs.clientRange := by
    have hasks : Asks 7 resumeArgs.clientRange 2 6 :=
      ⟨['2'], [], rangeForm_iff.mpr (by decide +kernel), by decide +kernel, rfl⟩
    exact not_unreadable_of_asks hasks
  exact ⟨run.1, run.2, hruns, (delivers_iff resumeArgs none 7 "text/plain" (by decide)
    (by decide +kernel) (by decide) rfl run.1 run.2 hruns hassigned hsizes).mpr hread⟩

def overlongArgs : InnerArgs :=
  { resumeArgs with
    clientRange := some (String.ofList ("bytes=".toList ++ ['0'] ++ '-' :: List.replicate 4301 '9')) }

theorem rangeForm_overlong :
    RangeForm overlongArgs.clientRange ['0'] (List.replicate 4301 '9') := by
  refine ⟨⟨_, rfl, ?_⟩, by decide, List.forall_mem_singleton.mpr (by decide), fun c hc => ?_⟩
  · rw [String.toList_ofList]
    refine PyText.strip_eq_self fun c hc => ?_
    rcases List.mem_append.mp hc with hc | hc
    · have hhead : ("bytes=".toList ++ ['0']).all (fun c => !PyText.isSpace c) = true := by decide
      exact (Bool.not_eq_true' _).mp (List.all_eq_true.mp hhead c hc)
    · rcases List.mem_cons.mp hc with rfl | hc
      · decide
      · rw [List.eq_of_mem_replicate hc]
        decide
  · rw [List.eq_of_mem_replicate hc]
    decide

theorem unreadable_overlong : Unreadable overlongArgs.clientRange := by
  refine ⟨_, _, rangeForm_overlong, .inr ?_⟩
  rw [List.length_replicate]
  exact Nat.lt_succ_self PyText.maxStrDigits

/-- The request ends in an error before any chunk is asked for. -/
theorem overlong_not_delivered :
    isExcluded overlongArgs.exclusion overlongArgs.url "text/plain" = .ok false ∧ ∃ msg,
      Runs (dispatch overlongArgs none ⟨some 7, true, "text/plain"⟩) [] (.error (.valueError msg)) ∧
      ¬ Delivered overlongArgs 7 (.error (.valueError msg)) := by
  have hexcl : isExcluded overlongArgs.exclusion overlongArgs.url "text/plain" = .ok false := by
    decide +kernel
  have hlength : (0 : Int) < 7 := by decide
  obtain ⟨msg, hruns⟩ := runs_dispatch_of_unreadable none hlength hexcl unreadable_overlong
  exact ⟨hexcl, msg, hruns, not_delivered_of_unreadable unreadable_overlong _⟩

end ProxySplit
