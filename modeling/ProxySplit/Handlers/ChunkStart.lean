import ProxySplit.Handlers.Preparation
import ProxySplit.Handlers.Request

namespace ProxySplit

open Lib Prog

def startsChunks : RequestEffect → Bool
  | .gather .. | .stream .. => true
  | _ => false

def started : Monitor RequestEffect RequestAnswer Bool := fun s e _ => s || startsChunks e

/-- `plan` sends ranges and proxies that satisfy `S`. -/
def PlanOf (S : List ChunkRange → List Url → Prop) (args : InnerArgs) (plan : StreamPlan) : Prop :=
  ∃ contentLength ct w ranges assigned raceProxy, S ranges assigned ∧
    plan = args.plan contentLength ct w ranges assigned raceProxy

def StartsSplit (S : List ChunkRange → List Url → Prop) (args : InnerArgs) : RequestEffect → Prop
  | .gather _ budget jobs => ∃ ranges assigned, S ranges assigned ∧
      chunkJobs args.chunkJob ranges assigned = .ok jobs ∧ budget = args.budget ranges.length
  | .stream plan jobs => PlanOf S args plan ∧ plan.jobs = .ok jobs
  | _ => False

abbrev StartSpec {α : Type} (rely : (e : RequestEffect) → RequestAnswer e → Prop)
    (G : RequestEffect → Prop) (p : Request α) (Q : Bool → α → Prop) (s : Bool) : Prop :=
  KeepsWith started rely (fun s e _ => startsChunks e = true → s = false ∧ G e) p Q s

/-- What `handle_inner` may return when chunks have been started, or not. -/
def Planned (S : List ChunkRange → List Url → Prop) (args : InnerArgs) (s : Bool) :
    Except PyExc Outcome → Prop
  | .ok (.stream plan) => s = false ∧ PlanOf S args plan
  | _ => True

def Allots (rely : (e : RequestEffect) → RequestAnswer e → Prop)
    (S : List ChunkRange → List Url → Prop) (args : InnerArgs) (w : Window) : Prop :=
  ∀ ranges views, buildRanges args.chunkSize w.start w.stop = some ranges →
    rely (.distribute ranges.length args.pool args.pin args.weighted args.excludeWindow) views →
      Keeps rely Preparing (rebalance args w ranges (PoolView.distributeProxies views ranges.length
        args.pool args.pin args.weighted args.excludeWindow))
        fun out => ∀ rs as, out = some (rs, as) → S rs as

variable {rely : (e : RequestEffect) → RequestAnswer e → Prop} {G : RequestEffect → Prop}
  {S : List ChunkRange → List Url → Prop} {args : InnerArgs} {s : Bool}

theorem startSpec_of_keeps {α : Type} {good : (e : RequestEffect) → RequestAnswer e → Prop}
    {p : Request α} {Q : α → Prop} (hquiet : ∀ e x, good e x → startsChunks e = false)
    (h : Keeps rely good p Q) : StartSpec rely G p (fun s' a => s' = s ∧ Q a) s := by
  refine h.keepsWith (I := fun s' => s' = s) ?_ rfl
  rintro s' e x rfl hgood
  have hnone := hquiet e x hgood
  exact ⟨fun h => absurd (hnone.symm.trans h) Bool.false_ne_true, by rw [started, hnone, Bool.or_false]⟩

theorem starts_of_preparing (e : RequestEffect) (x : RequestAnswer e) (h : Preparing e x) :
    startsChunks e = false := by
  cases e with
  | gather | stream => exact h.elim
  | _ => rfl

theorem startSpec_of_preparing {α : Type} {p : Request α} {Q : α → Prop} (h : Keeps rely Preparing p Q) :
    StartSpec rely G p (fun s' a => s' = s ∧ Q a) s := startSpec_of_keeps starts_of_preparing h

section Inner

variable (hG : ∀ e, StartsSplit S args e → G e)

theorem startSpec_fetchFallback {requestProxy : Option Url} {ct : String} :
    StartSpec rely G (fetchFallback args requestProxy ct) (Planned S args) s := by
  have hwhole : Prepares rely (within .whole (fetchWhole (args.wholeJob requestProxy))) :=
    prepares_within (by decide)
  refine (startSpec_of_preparing hwhole).bind fun s' r _ => ?_
  split
  · trivial
  · trivial

include hG

theorem startSpec_gatherChunks {n : Int} {ct : String} {w : Window} {ranges : List ChunkRange}
    {assigned : List Url} (hS : S ranges assigned) (hs : s = false) :
    StartSpec rely G (gatherChunks args n ct w ranges assigned) (Planned S args) s := by
  unfold gatherChunks
  split
  · trivial
  · next jobs hjobs =>
    intro run _
    refine ⟨fun _ => ⟨hs, hG _ ⟨ranges, assigned, hS, hjobs, rfl⟩⟩, ?_⟩
    change KeepsWith _ _ _ (if run.interrupted then _ else _) _ _
    split
    · trivial
    · change Planned S args _ (assemble args n ct w ranges run.results)
      cases hout : assemble args n ct w ranges run.results with
      | error exc => trivial
      | ok outcome =>
        cases outcome with
        | response r => trivial
        | stream plan => exact absurd hout (assemble_ne_stream _ _ _ _ _ _ _)

theorem startSpec_fetchChunks {n : Int} {ct : String} {w : Window} {ranges : List ChunkRange}
    {assigned : List Url} (hS : S ranges assigned) (hs : s = false) :
    StartSpec rely G (fetchChunks args n ct w ranges assigned) (Planned S args) s := by
  refine (startSpec_of_preparing prepares_pickRace).bind ?_
  rintro s' raceProxy ⟨rfl, -⟩
  split
  · exact ⟨hs, n, ct, w, ranges, assigned, raceProxy, hS, rfl⟩
  · exact startSpec_gatherChunks hG hS hs

theorem startSpec_splitWindow {n : Int} {ct : String} {w : Window} (hS : Allots rely S args w)
    (hs : s = false) : StartSpec rely G (splitWindow args n ct w) (Planned S args) s := by
  refine (startSpec_of_preparing prepares_prewarm).bind ?_
  rintro s₁ _ ⟨rfl, -⟩
  split
  · exact fun x => nomatch x
  · next ranges hranges =>
    intro views hviews
    refine ⟨nofun, ?_⟩
    change KeepsWith _ _ _ (if _ then _ else _) _ _
    split
    · have hnone : Keeps rely Preparing (noProxies args) fun out => ∃ r, out = .ok (.response r) :=
        Keeps.bind (prepares_perform fun _ => trivial) fun view _ => ⟨_, rfl⟩
      refine (startSpec_of_preparing hnone).mono ?_
      rintro s₂ _ ⟨-, r, rfl⟩
      trivial
    · refine (startSpec_of_preparing (hS ranges views hranges hviews)).bind ?_
      rintro s₂ out ⟨rfl, hout⟩
      split
      · exact fun x => nomatch x
      · next rs as =>
        exact startSpec_fetchChunks hG (hout rs as rfl) (by simp [started, startsChunks, hs])

theorem startSpec_dispatch {requestProxy : Option Url} {info : HeadInfo}
    (hS : ∀ contentLength w, isExcluded args.exclusion args.url info.contentType = .ok false →
      info.splittable = some contentLength → selectWindow contentLength args.clientRange = .ok w →
        Allots rely S args w) (hs : s = false) :
    StartSpec rely G (dispatch args requestProxy info) (Planned S args) s := by
  unfold dispatch
  split
  · trivial
  · exact startSpec_fetchFallback
  · next hexcl =>
    split
    · exact startSpec_fetchFallback
    · next n hn =>
      split
      · trivial
      · next w hw => exact startSpec_splitWindow hG (hS n w hexcl hn hw) hs

theorem startSpec_handleInner (hS : ∀ w, Allots rely S args w) (hs : s = false) :
    StartSpec rely G (handleInner args) (Planned S args) s := by
  refine (startSpec_of_preparing prepares_pickRequestProxy).bind ?_
  rintro s₁ requestProxy ⟨rfl, -⟩
  refine (startSpec_of_preparing prepares_resolveContentInfo).bind ?_
  rintro s₂ info ⟨rfl, -⟩
  split
  · trivial
  · exact startSpec_dispatch hG (fun _ w _ _ _ => hS w) hs

end Inner

section Handler

variable {cfg : RequestConfig} {req : ClientRequest} {url : Url} {rid : String}

/-- Outside `handle_inner` only a stream starts chunks. -/
def Serving : (e : RequestEffect) → RequestAnswer e → Prop
  | .gather .., _ | .stream .., _ => False
  | _, _ => True

theorem starts_of_serving (e : RequestEffect) (x : RequestAnswer e) (h : Serving e x) :
    startsChunks e = false := by
  cases e with
  | gather | stream => exact h.elim
  | _ => rfl

theorem serving_perform {e : RequestEffect} (h : ∀ x, Serving e x) :
    Keeps rely Serving (perform e) fun _ => True := fun x _ => ⟨h x, trivial⟩

theorem serving_recover {exc : PyExc} : Keeps rely Serving (recover cfg rid exc) fun _ => True := by
  unfold recover
  split
  · trivial
  · split
    · refine Keeps.bind (serving_perform fun _ => trivial) fun passed _ => ?_
      split
      · trivial
      · trivial
    · trivial
  · trivial

theorem serving_storeResponse {r : Response} :
    Keeps rely Serving (storeResponse req url r) fun _ => True := by
  unfold storeResponse
  split
  · exact Keeps.bind (serving_perform fun _ => trivial) fun _ _ => serving_perform fun _ => trivial
  · trivial

theorem serving_readBody : Keeps rely Serving (readBody req) fun _ => True := by
  unfold readBody
  split
  · refine Keeps.bind (serving_perform fun _ => trivial) fun r _ => ?_
    split
    · trivial
    · trivial
  · trivial

theorem serving_serveCached : Keeps rely Serving (serveCached cfg req url rid) fun _ => True := by
  have hl1 : ∀ cached, Keeps rely Serving (serveL1 cfg req url rid cached) fun _ => True := by
    intro cached
    refine Keeps.bind (serving_perform fun _ => trivial) fun validators _ => ?_
    dsimp only
    split
    · trivial
    · refine Keeps.bind (Q := fun _ => True) ?_ fun r _ => ?_
      · exact keeps_within.mpr ((keeps_of_forall fun _ => trivial).mono (fun _ _ h => h)
          (fun _ _ _ _ => trivial) fun _ h => h)
      · split
        · split
          · trivial
          · trivial
        · split
          · trivial
          · split
            · exact Keeps.bind (serving_perform fun _ => trivial) fun _ _ => trivial
            · trivial
  have hl2 : Keeps rely Serving (serveL2 url rid) fun _ => True := by
    refine Keeps.bind (serving_perform fun _ => trivial) fun hit _ => ?_
    split
    · trivial
    · trivial
    · exact Keeps.bind (serving_perform fun _ => trivial) fun _ _ => trivial
  unfold serveCached
  split
  · refine Keeps.bind (serving_perform fun _ => trivial) fun hit _ => ?_
    split
    · refine (hl1 _).bind fun r _ => ?_
      split
      · trivial
      · trivial
    · exact hl2
  · trivial

theorem startSpec_respond (hG : ∀ e, StartsSplit S args e → G e) {result : Except PyExc Outcome}
    (h : Planned S args s result) :
    StartSpec rely G (respond cfg req url rid result) (fun _ _ => True) s := by
  have hrecover : ∀ exc s, StartSpec rely G (recover cfg rid exc) (fun _ _ => True) s :=
    fun exc s => (startSpec_of_keeps starts_of_serving serving_recover).mono fun _ _ _ => trivial
  unfold respond
  split
  · exact hrecover _ _
  · next outcome =>
    have hfinish : StartSpec rely G (finish req url rid outcome) (fun _ _ => True) s := by
      unfold finish
      split
      · next plan =>
        obtain ⟨hs, hplan⟩ := h
        have hsend : StartSpec rely G (sendStream plan) (fun _ _ => True) s := by
          unfold sendStream
          split
          · trivial
          · next jobs hjobs => exact fun run _ => ⟨fun _ => ⟨hs, hG _ ⟨hplan, hjobs⟩⟩, trivial⟩
        refine hsend.bind fun s' r _ => ?_
        split
        · trivial
        · trivial
      · exact (startSpec_of_keeps starts_of_serving serving_storeResponse).bind fun _ _ _ => trivial
    refine hfinish.bind fun s' r _ => ?_
    split
    · trivial
    · trivial
    · exact hrecover _ _

theorem startSpec_handleRequest {sizer : Option Int}
    (hS : ∀ url chunkSize body w, Allots rely S (innerArgs cfg req url rid chunkSize body) w) :
    StartSpec rely (fun e => ∃ url chunkSize body,
      StartsSplit S (innerArgs cfg req url rid chunkSize body) e)
      (handleRequest cfg req rid sizer) (fun _ _ => True) false := by
  unfold handleRequest
  split
  · trivial
  · next url _ =>
    split
    · refine (startSpec_of_keeps starts_of_serving serving_serveCached).bind ?_
      rintro s₁ r ⟨rfl, -⟩
      split
      · trivial
      · trivial
      · refine (startSpec_of_keeps starts_of_serving serving_readBody).bind ?_
        rintro s₂ r ⟨rfl, -⟩
        split
        · trivial
        · next body =>
          have hG : ∀ e, StartsSplit S
              (innerArgs cfg req url rid (sizer.getD cfg.staticChunkSize) body) e →
              ∃ url chunkSize body, StartsSplit S (innerArgs cfg req url rid chunkSize body) e :=
            fun e he => ⟨_, _, _, he⟩
          refine (startSpec_handleInner hG (hS _ _ _) rfl).bind fun s₃ result hresult => ?_
          exact startSpec_respond hG hresult
    · trivial

end Handler

theorem starts_le_one {β : Type} {f : Event RequestEffect RequestAnswer → Option β}
    (hf : ∀ ev b, f ev = some b → startsChunks ev.1 = true) {tr : RequestTrace}
    (h : started.Always (fun s e _ => startsChunks e = true → s = false ∧ G e) s tr) :
    (tr.filterMap f).length ≤ if s then 0 else 1 := by
  induction tr generalizing s with
  | nil => exact Nat.zero_le _
  | cons ev tr ih =>
    obtain ⟨hev, htr⟩ := h
    have hrest := ih htr
    rw [List.filterMap_cons]
    cases hb : f ev with
    | none =>
      refine hrest.trans ?_
      cases s with
      | true => exact Nat.le_refl _
      | false => simp only [started, Bool.false_or]; split <;> simp
    | some b =>
      have hstart := hf ev b hb
      obtain ⟨rfl, -⟩ := hev hstart
      simpa [started, hstart] using hrest

theorem of_startsChunks {tr : RequestTrace} (h : started.Always (fun s e _ =>
    startsChunks e = true → s = false ∧ G e) s tr) {ev : Event RequestEffect RequestAnswer}
    (hev : ev ∈ tr) (hstart : startsChunks ev.1 = true) : G ev.1 := by
  induction tr generalizing s with
  | nil => cases hev
  | cons ev' tr ih =>
    obtain ⟨hfirst, htr⟩ := h
    rcases List.mem_cons.mp hev with rfl | hmem
    · exact (hfirst hstart).2
    · exact ih htr hmem

section File

def inTwoChunks : RequestConfig := { staticChunkSize := 2, useStreaming := false }

def download (headers : Headers) : ClientRequest where
  method := "GET"
  url := some "http://origin.example/file"
  noCache := some "1"
  pool := none
  headers := headers
  body := []

def gatherRun (respond : (e : FetchEffect) → FetchAnswer e) {maxWorkers : Nat} (retryBudget : Nat)
    (jobs : List ChunkJob) (h : 0 < maxWorkers) : GatherRun maxWorkers retryBudget jobs where
  tasks i := some ⟨_, _, runs_exec respond (fetchChunk (jobs.get i))⟩
  interrupted := false
  started _ _ := h
  finished _ _ := rfl

def fileFrom (proxies : List Url) (respond : (e : FetchEffect) → FetchAnswer e) :
    (e : RequestEffect) → Option (RequestAnswer e)
  | .fetch .headPicks (.pickProxy ..) => some (PoolView.viewOf [])
  | .fetch _ (.pickProxy ..) => some (PoolView.viewOf proxies)
  | .fetch _ (.http _) => some (.ok ⟨206, [("Content-Range", "bytes 0-0/4")], [0], 0⟩)
  | .distribute .. => some fun _ => PoolView.viewOf proxies
  | .chunkSizes .. => some fun _ => 2
  | .gather maxWorkers retryBudget jobs =>
    if h : 0 < maxWorkers then some (gatherRun respond retryBudget jobs h) else none
  | .cachePut .. | .diskPut .. => some ()
  | _ => none

end File

end ProxySplit
