import ProxySplit.Fetchers.BreakerUse
import ProxySplit.Handlers.CacheUse
import ProxySplit.Lib.Machine

namespace ProxySplit

open Lib Prog

/-- A request that is being served, with the representation of its url that the origin has meanwhile,
and whether it was clean so far.  Once it is served its program is the reply. -/
structure Flight where
  req : ClientRequest
  body : Bytes
  clean : Prop
  prog : Request Reply

/-- A write that `asyncio.ensure_future` has scheduled. -/
structure DiskWrite where
  url : Url
  response : Cached
  clean : Prop

/-- The parameters of `ResponseCache`, and those of `DiskCache` if there is one. -/
structure CacheSettings where
  maxSize : Int
  defaultTtl : PyFloat
  maxBody : Int
  disk : Option DiskCache

/-- The two caches, with the requests and the disk writes that are under way. -/
structure CacheSystem where
  l1 : ResponseCache
  l2 : Option DiskCache
  now : Clock
  flights : List Flight
  writes : List DiskWrite

inductive CacheLabel
  | arrive (req : ClientRequest) (rid : String) (sizer : Option Int) (body : Bytes)
  | answer (i : Nat) (ev : Event RequestEffect RequestAnswer)
  | store (i : Nat)
  | write (n : Nat)
  | tick (now : Clock)

/-- What is not left to the caches.  The look into the disk cache may fail. -/
def Outside : (e : RequestEffect) → RequestAnswer e → Bool
  | .cacheGet _, _ | .cacheValidators _, _ | .cachePut .., _ | .diskPut .., _ => false
  | .diskGet _, .ok _ => false
  | _, _ => true

section Step

variable (rep : Url → Bytes → Prop) (cfg : RequestConfig)

def Flight.goOn (f : Flight) (e : RequestEffect) (x : RequestAnswer e)
    (k : RequestAnswer e → Request Reply) : Flight :=
  { f with clean := f.clean ∧ Clean rep f.req f.body e x, prog := k x }

def Flight.answer (f : Flight) (ev : Event RequestEffect RequestAnswer) : Option Flight :=
  match f.prog with
  | .pure _ => none
  | .perform e k =>
    if h : ev.1 = e then
      if Outside ev.1 ev.2 then some (f.goOn rep e (h ▸ ev.2) k) else none
    else none

def CacheSystem.store (s : CacheSystem) (i : Nat) (f : Flight) : Option CacheSystem :=
  match f.prog with
  | .perform (.cacheGet url) k =>
    let (l1, hit) := s.l1.get s.now url
    some { s with l1 := l1, flights := s.flights.set i (f.goOn rep (.cacheGet url) hit k) }
  | .perform (.cacheValidators url) k =>
    let validators := s.l1.getValidators url
    some { s with flights := s.flights.set i (f.goOn rep (.cacheValidators url) validators k) }
  | .perform (.cachePut url r) k =>
    some { s with
      l1 := s.l1.put s.now url r
      flights := s.flights.set i (f.goOn rep (.cachePut url r) () k) }
  | .perform (.diskGet url) k =>
    match s.l2 with
    | none =>
      some { s with flights := s.flights.set i (f.goOn rep (.diskGet url) (.ok none) k) }
    | some disk =>
      let (l2, hit) := disk.get s.now url
      some { s with
        l2 := some l2
        flights := s.flights.set i (f.goOn rep (.diskGet url) (.ok hit) k) }
  | .perform (.diskPut url r) k =>
    some { s with
      writes := s.writes ++ (s.l2.map fun _ => (⟨url, r, f.clean⟩ : DiskWrite)).toList
      flights := s.flights.set i (f.goOn rep (.diskPut url r) () k) }
  | _ => none

def CacheSystem.step (s : CacheSystem) : CacheLabel → Option CacheSystem
  | .arrive req rid sizer body =>
    some { s with flights := s.flights ++ [⟨req, body, True, handleRequest cfg req rid sizer⟩] }
  | .answer i ev =>
    s.flights[i]?.bind fun f => (f.answer rep ev).map fun f' =>
      { s with flights := s.flights.set i f' }
  | .store i => s.flights[i]?.bind fun f => s.store rep i f
  | .write n =>
    s.writes[n]?.bind fun w => s.l2.map fun disk =>
      { s with l2 := some (disk.put s.now w.url w.response), writes := s.writes.eraseIdx n }
  | .tick now => some { s with now := now }

def cacheMachine (settings : CacheSettings) : Machine CacheSystem CacheLabel where
  init :=
    { l1 := ⟨settings.maxSize, settings.defaultTtl, settings.maxBody, .empty⟩
      l2 := settings.disk.map fun disk => { disk with responses := .empty }
      now := ⟨0, 0⟩
      flights := []
      writes := [] }
  step := CacheSystem.step rep cfg

end Step

/-- The origin has a representation of what is asked for, and what is put into a cache comes from a
request that was clean so far, or is refused by that cache. -/
def Allowed (rep : Url → Bytes → Prop) (s : CacheSystem) : CacheLabel → Prop
  | .arrive req _ _ body => ∀ url, truthy req.url = some url → rep url body
  | .store i =>
    match s.flights[i]? with
    | some ⟨_, _, clean, .perform (.cachePut _ r) _⟩ => clean ∨ s.l1.accepts r = false
    | _ => True
  | .write n => ∀ w disk, s.writes[n]? = some w → s.l2 = some disk →
      w.clean ∨ disk.accepts w.response = false
  | _ => True

/-- All that is stored is complete, and so is what the clients were answered from the stores. -/
structure CachesComplete (rep : Url → Bytes → Prop) (s : CacheSystem) : Prop where
  l1 : ∀ url entry, s.l1.store.get? url = some entry → Complete rep url entry.cached
  l2 : ∀ disk url row, s.l2 = some disk → disk.responses.get? url = some row →
    Complete rep url row.cached
  answers : ∀ f ∈ s.flights, ∀ reply, f.prog = .pure reply →
    AnswersComplete rep ((truthy f.req.url).getD "") reply

/-- A flight serves its request as far as the specification is kept. -/
def Flight.Kept (rep : Url → Bytes → Prop) (f : Flight) : Prop :=
  CacheSpec rep f.req f.body f.prog
    (fun _ => AnswersComplete rep ((truthy f.req.url).getD "")) f.clean

structure CacheInv (rep : Url → Bytes → Prop) (s : CacheSystem) : Prop where
  l1 : ∀ url entry, s.l1.store.get? url = some entry → Complete rep url entry.cached
  l2 : ∀ disk url row, s.l2 = some disk → disk.responses.get? url = some row →
    Complete rep url row.cached
  flights : ∀ f ∈ s.flights, f.Kept rep
  writes : ∀ w ∈ s.writes, w.clean → Complete rep w.url w.response

section Invariant

variable {rep : Url → Bytes → Prop} {cfg : RequestConfig} {s s' : CacheSystem} {f f' : Flight}
  {i : Nat}

theorem CacheInv.complete (h : CacheInv rep s) : CachesComplete rep s := by
  refine ⟨h.l1, h.l2, ?_⟩
  intro f hf reply hreply
  have hspec := h.flights f hf
  rw [Flight.Kept, hreply] at hspec
  exact hspec

theorem Flight.Kept.goOn (h : f.Kept rep) {e : RequestEffect} {k : RequestAnswer e → Request Reply}
    (hf : f.prog = .perform e k) {x : RequestAnswer e} (hx : Hits rep e x) :
    PutsComplete rep f.clean e x ∧ (f.goOn rep e x k).Kept rep := by
  rw [Kept, hf] at h
  exact h x hx

theorem CacheInv.setFlight (h : CacheInv rep s) (hf : f'.Kept rep) :
    CacheInv rep { s with flights := s.flights.set i f' } := by
  refine ⟨h.l1, h.l2, ?_, h.writes⟩
  intro g hg
  rcases List.mem_or_eq_of_mem_set hg with hg | rfl
  · exact h.flights g hg
  · exact hf

theorem CacheInv.answer (h : CacheInv rep s) {ev : Event RequestEffect RequestAnswer}
    (hf : f ∈ s.flights) (hf' : f.answer rep ev = some f') : f'.Kept rep := by
  unfold Flight.answer at hf'
  split at hf'
  · cases hf'
  · next e k hprog =>
    split at hf'
    · next heq =>
      subst heq
      split at hf'
      · next hout =>
        cases hf'
        have hhits : Hits rep ev.1 ev.2 := by
          obtain ⟨e, x⟩ := ev
          cases e with
          | cacheGet => cases hout
          | diskGet url =>
            cases x with
            | error exc => trivial
            | ok hit => cases hout
          | _ => trivial
        exact ((h.flights f hf).goOn hprog hhits).2
      · cases hf'
    · cases hf'

theorem allowed_put {url : Url} {r : Cached} {k : Unit → Request Reply}
    (hi : s.flights[i]? = some f) (hprog : f.prog = .perform (.cachePut url r) k)
    (hok : Allowed rep s (.store i)) : f.clean ∨ s.l1.accepts r = false := by
  obtain ⟨req, body, clean, prog⟩ := f
  subst hprog
  rw [Allowed, hi] at hok
  exact hok

theorem CacheInv.store (h : CacheInv rep s) (hi : s.flights[i]? = some f)
    (hok : Allowed rep s (.store i)) (hs : s.store rep i f = some s') : CacheInv rep s' := by
  have hf := h.flights f (List.mem_of_getElem? hi)
  unfold CacheSystem.store at hs
  split at hs
  · next url k hprog =>
    cases hs
    have hhits : Hits rep (.cacheGet url) (s.l1.get s.now url).2 := by
      cases hhit : (s.l1.get s.now url).2 with
      | none => trivial
      | some r =>
        obtain ⟨entry, hentry, rfl⟩ := ResponseCache.stored_of_hit hhit
        exact h.l1 url entry hentry
    have hl1 : CacheInv rep { s with l1 := (s.l1.get s.now url).1 } :=
      ⟨fun u entry hu => h.l1 u entry (ResponseCache.stored_of_get hu), h.l2, h.flights, h.writes⟩
    exact hl1.setFlight (hf.goOn hprog hhits).2
  · next url k hprog =>
    cases hs
    exact h.setFlight (hf.goOn hprog trivial).2
  · next url r k hprog =>
    cases hs
    obtain ⟨hput, hrest⟩ := hf.goOn hprog (x := ()) trivial
    have hl1 : CacheInv rep { s with l1 := s.l1.put s.now url r } := by
      refine ⟨fun u entry hu => ?_, h.l2, h.flights, h.writes⟩
      rcases ResponseCache.stored_of_put hu with hu | ⟨hacc, rfl, rfl⟩
      · exact h.l1 u entry hu
      · rcases allowed_put hi hprog hok with hclean | hrefused
        · exact hput hclean
        · exact absurd (hrefused.symm.trans hacc) Bool.false_ne_true
    exact hl1.setFlight hrest
  · next url k hprog =>
    split at hs
    · cases hs
      exact h.setFlight (hf.goOn hprog (x := .ok none) trivial).2
    · next disk hdisk =>
      cases hs
      have hhits : Hits rep (.diskGet url) (.ok (disk.get s.now url).2) := by
        cases hhit : (disk.get s.now url).2 with
        | none => trivial
        | some r =>
          obtain ⟨row, hrow, rfl⟩ := DiskCache.stored_of_hit hhit
          exact h.l2 disk url row hdisk hrow
      have hl2 : CacheInv rep { s with l2 := some (disk.get s.now url).1 } := by
        refine ⟨h.l1, ?_, h.flights, h.writes⟩
        intro disk' u row hdisk' hrow
        cases hdisk'
        exact h.l2 disk u row hdisk (DiskCache.stored_of_get hrow)
      exact hl2.setFlight (hf.goOn hprog hhits).2
  · next url r k hprog =>
    cases hs
    obtain ⟨hput, hrest⟩ := hf.goOn hprog (x := ()) trivial
    have hwrites : CacheInv rep { s with
        writes := s.writes ++ (s.l2.map fun _ => (⟨url, r, f.clean⟩ : DiskWrite)).toList } := by
      refine ⟨h.l1, h.l2, h.flights, ?_⟩
      intro w hw
      rcases List.mem_append.mp hw with hw | hw
      · exact h.writes w hw
      · obtain ⟨disk, -, rfl⟩ := Option.map_eq_some_iff.mp (Option.mem_toList.mp hw)
        exact hput
    exact hwrites.setFlight hrest
  · cases hs

theorem CacheInv.step (h : CacheInv rep s) {l : CacheLabel} (hok : Allowed rep s l)
    (hs : s.step rep cfg l = some s') : CacheInv rep s' := by
  cases l with
  | arrive req rid sizer body =>
    cases hs
    refine ⟨h.l1, h.l2, ?_, h.writes⟩
    intro f hf
    rcases List.mem_append.mp hf with hf | hf
    · exact h.flights f hf
    · rw [List.mem_singleton.mp hf]
      exact cacheSpec_handleRequest hok
  | answer i ev =>
    obtain ⟨f, hi, hs⟩ := Option.bind_eq_some_iff.mp hs
    obtain ⟨f', hf', rfl⟩ := Option.map_eq_some_iff.mp hs
    exact h.setFlight (h.answer (List.mem_of_getElem? hi) hf')
  | store i =>
    obtain ⟨f, hi, hs⟩ := Option.bind_eq_some_iff.mp hs
    exact h.store hi hok hs
  | write n =>
    obtain ⟨w, hw, hs⟩ := Option.bind_eq_some_iff.mp hs
    obtain ⟨disk, hdisk, rfl⟩ := Option.map_eq_some_iff.mp hs
    refine ⟨h.l1, ?_, h.flights, fun v hv => h.writes v (List.mem_of_mem_eraseIdx hv)⟩
    intro disk' u row hdisk' hrow
    cases hdisk'
    rcases DiskCache.stored_of_put hrow with hrow | ⟨hacc, rfl, heq⟩
    · exact h.l2 disk u row hdisk hrow
    · rcases hok w disk hw hdisk with hclean | hrefused
      · exact heq ▸ h.writes w (List.mem_of_getElem? hw) hclean
      · exact absurd (hrefused.symm.trans hacc) Bool.false_ne_true
  | tick now =>
    cases hs
    exact ⟨h.l1, h.l2, h.flights, h.writes⟩

theorem CacheInv.init {settings : CacheSettings} :
    CacheInv rep (cacheMachine rep cfg settings).init := by
  constructor
  · intro url entry hentry
    cases hentry
  · intro disk url row hdisk hrow
    obtain ⟨disk', -, rfl⟩ := Option.map_eq_some_iff.mp hdisk
    cases hrow
  · intro f hf
    cases hf
  · intro w hw
    cases hw

end Invariant

/-- Whatever requests there are and in whatever order things happen, the caches hold and answer
complete responses only, as long as what is put into a cache comes from a request that was clean or is
refused. -/
theorem cachesComplete_of_reach (rep : Url → Bytes → Prop) (cfg : RequestConfig)
    (settings : CacheSettings) (s : CacheSystem)
    (hs : (cacheMachine rep cfg settings).Reach (Allowed rep) s) : CachesComplete rep s :=
  (hs.invariant CacheInv.init fun _ _ _ h hok hstep => h.step hok hstep).complete

def CleanStep (rep : Url → Bytes → Prop) (s : CacheSystem) : CacheLabel → Prop
  | .arrive req _ _ body => ∀ url, truthy req.url = some url → rep url body
  | .answer i ev => ∀ f, s.flights[i]? = some f → Clean rep f.req f.body ev.1 ev.2
  | _ => True

section CleanRuns

variable {rep : Url → Bytes → Prop} {cfg : RequestConfig} {settings : CacheSettings}
  {s s' : CacheSystem}

structure AllClean (s : CacheSystem) : Prop where
  flights : ∀ f ∈ s.flights, f.clean
  writes : ∀ w ∈ s.writes, w.clean

theorem AllClean.setFlight (h : AllClean s) {i : Nat} {f : Flight}
    (hflights : s'.flights = s.flights.set i f) (hwrites : ∀ w ∈ s'.writes, w ∉ s.writes → w.clean)
    (hf : f.clean) : AllClean s' := by
  constructor
  · intro g hg
    rw [hflights] at hg
    rcases List.mem_or_eq_of_mem_set hg with hg | rfl
    · exact h.flights g hg
    · exact hf
  · intro w hw
    by_cases hold : w ∈ s.writes
    · exact h.writes w hold
    · exact hwrites w hw hold

theorem AllClean.store (h : AllClean s) {i : Nat} {f : Flight} (hi : s.flights[i]? = some f)
    (hs : s.store rep i f = some s') : AllClean s' := by
  have hf : f.clean := h.flights f (List.mem_of_getElem? hi)
  have hold : ∀ w ∈ s.writes, w ∉ s.writes → w.clean := fun w hw hnot => absurd hw hnot
  unfold CacheSystem.store at hs
  split at hs
  · cases hs
    exact h.setFlight rfl hold ⟨hf, trivial, trivial, trivial, trivial⟩
  · cases hs
    exact h.setFlight rfl hold ⟨hf, trivial, trivial, trivial, trivial⟩
  · cases hs
    exact h.setFlight rfl hold ⟨hf, trivial, trivial, trivial, trivial⟩
  · split at hs
    · cases hs
      exact h.setFlight rfl hold ⟨hf, trivial, trivial, trivial, trivial⟩
    · cases hs
      exact h.setFlight rfl hold ⟨hf, trivial, trivial, trivial, trivial⟩
  · next url r k _ =>
    cases hs
    refine h.setFlight rfl ?_ ⟨hf, trivial, trivial, trivial, trivial⟩
    intro w hw hnew
    have hscheduled := (List.mem_append.mp hw).resolve_left hnew
    obtain ⟨disk, -, rfl⟩ := Option.map_eq_some_iff.mp (Option.mem_toList.mp hscheduled)
    exact hf
  · cases hs

theorem AllClean.step (h : AllClean s) {l : CacheLabel} (hok : CleanStep rep s l)
    (hs : s.step rep cfg l = some s') : AllClean s' := by
  cases l with
  | arrive req rid sizer body =>
    cases hs
    refine ⟨?_, h.writes⟩
    intro f hf
    rcases List.mem_append.mp hf with hf | hf
    · exact h.flights f hf
    · rw [List.mem_singleton.mp hf]
      trivial
  | answer i ev =>
    obtain ⟨f, hi, hs⟩ := Option.bind_eq_some_iff.mp hs
    obtain ⟨f', hf', rfl⟩ := Option.map_eq_some_iff.mp hs
    have hclean := h.flights f (List.mem_of_getElem? hi)
    have hevent := hok f hi
    refine h.setFlight rfl (fun w hw hnot => absurd hw hnot) ?_
    unfold Flight.answer at hf'
    split at hf'
    · cases hf'
    · split at hf'
      · next heq =>
        subst heq
        split at hf'
        · cases hf'
          exact ⟨hclean, hevent⟩
        · cases hf'
      · cases hf'
  | store i =>
    obtain ⟨f, hi, hs⟩ := Option.bind_eq_some_iff.mp hs
    exact h.store hi hs
  | write n =>
    obtain ⟨w, hw, hs⟩ := Option.bind_eq_some_iff.mp hs
    obtain ⟨disk, hdisk, rfl⟩ := Option.map_eq_some_iff.mp hs
    exact ⟨h.flights, fun v hv => h.writes v (List.mem_of_mem_eraseIdx hv)⟩
  | tick now =>
    cases hs
    exact ⟨h.flights, h.writes⟩

theorem allClean_of_reach (hs : (cacheMachine rep cfg settings).Reach (CleanStep rep) s) :
    AllClean s := by
  refine hs.invariant ⟨?_, ?_⟩ fun _ _ _ h hok hstep => h.step hok hstep
  · intro f hf
    cases hf
  · intro w hw
    cases hw

theorem AllClean.allowed (h : AllClean s) {l : CacheLabel} (hok : CleanStep rep s l) :
    Allowed rep s l := by
  cases l with
  | arrive => exact hok
  | store i =>
    rw [Allowed]
    split
    · next hi => exact .inl (h.flights _ (List.mem_of_getElem? hi))
    · trivial
  | write n => exact fun w _ hw _ => .inl (h.writes w (List.mem_of_getElem? hw))
  | _ => trivial

theorem allowed_of_clean (hs : (cacheMachine rep cfg settings).Reach (CleanStep rep) s) :
    (cacheMachine rep cfg settings).Reach (Allowed rep) s := by
  induction hs with
  | init => exact .init
  | step hs hok hstep ih => exact .step ih ((allClean_of_reach hs).allowed hok) hstep

end CleanRuns

def article : ClientRequest where
  method := "GET"
  url := some "http://origin.example/article"
  noCache := none
  pool := none
  headers := []
  body := []

/-- The origin only ever has this article. -/
def IsArticle (_ : Url) (body : Bytes) : Prop := body = [104, 105]

def smallCache : CacheSettings := ⟨256, .fin 300, 67108864, none⟩

def fetchArticle : List CacheLabel :=
  let noProxy := PoolView.viewOf []
  let oneProxy := PoolView.viewOf ["http://10.0.0.1:8080"]
  let args := innerArgs {} article "http://origin.example/article" "-" 524288 none
  let job := args.wholeJob none
  [.arrive article "-" none [104, 105], .store 0, .store 0,
    .answer 0 ⟨.fetch .headPicks (.pickProxy none ∅ true), noProxy⟩,
    .answer 0 ⟨.fetch .rangeProbe (.pickProxy none ∅ true), noProxy⟩,
    .answer 0 ⟨.fetch .whole (.pickProxy none ∅ true), oneProxy⟩,
    .answer 0 ⟨.fetch .whole (.allowRequest "http://10.0.0.1:8080"),
      ⟨.new 5 60 3600, 0, .new 5 60 3600, 0⟩⟩,
    .answer 0 ⟨.fetch .whole (.http (job.request (some "http://10.0.0.1:8080"))),
      .ok ⟨200, [], [104, 105], 0⟩⟩,
    .answer 0 ⟨.fetch .whole (.recordSuccess (some "http://10.0.0.1:8080") 2 0), ()⟩,
    .store 0, .store 0]

def askAgain : List CacheLabel :=
  [.arrive article "-" none [104, 105], .store 1, .store 1]

def servedFromL1 (s : CacheSystem) (status : Nat) : Bool :=
  match s.flights[1]?.map Flight.prog with
  | some (Prog.pure (.response r)) => r.status = status ∧ ("X-Cache", "HIT-L1") ∈ r.headers
  | _ => false

theorem article_served : ∃ s,
    (cacheMachine IsArticle {} smallCache).Reach (Allowed IsArticle) s ∧
      servedFromL1 s 200 = true ∧ CachesComplete IsArticle s := by
  have hclean : ∀ l ∈ fetchArticle ++ askAgain, ∀ s, CleanStep IsArticle s l := by
    have harrive : ∀ s, CleanStep IsArticle s (.arrive article "-" none [104, 105]) :=
      fun _ _ _ => rfl
    have hanswer : ∀ s ev, (∀ f : Flight, Clean IsArticle f.req f.body ev.1 ev.2) →
        CleanStep IsArticle s (.answer 0 ev) := fun _ _ h f _ => h f
    intro l hl s
    simp only [fetchArticle, askAgain, List.cons_append, List.nil_append, List.mem_cons,
      List.not_mem_nil, or_false] at hl
    rcases hl with rfl | rfl | rfl | rfl | rfl | rfl | rfl | rfl | rfl | rfl | rfl | rfl | rfl | rfl
    · exact harrive s
    · trivial
    · trivial
    · exact hanswer s _ fun f => ⟨trivial, trivial, trivial, trivial⟩
    · exact hanswer s _ fun f => ⟨trivial, trivial, trivial, trivial⟩
    · exact hanswer s _ fun f => ⟨trivial, trivial, trivial, trivial⟩
    · exact hanswer s _ fun f => ⟨trivial, trivial, trivial, trivial⟩
    · exact hanswer s _ fun f => ⟨fun _ _ => rfl, trivial, trivial, rfl⟩
    · exact hanswer s _ fun f => ⟨trivial, trivial, trivial, trivial⟩
    · trivial
    · trivial
    · exact harrive s
    · trivial
    · trivial
  obtain ⟨s, hs, hserved⟩ := Machine.exists_reach (M := cacheMachine IsArticle {} smallCache)
    (P := fun s => servedFromL1 s 200 = true) (fetchArticle ++ askAgain) hclean
    (by decide +kernel)
  have hallowed := allowed_of_clean hs
  exact ⟨s, hallowed, hserved, cachesComplete_of_reach IsArticle {} smallCache s hallowed⟩

def firstByte : ClientRequest := { article with headers := [("Range", "bytes=0-0")] }

def buffered : RequestConfig := { useStreaming := false }

def gatherFirstByte (budget : Nat) (jobs : List ChunkJob) : GatherRun 10 budget jobs where
  tasks i := some ⟨_, _, runs_exec (answering (.new 5 60 3600) [104]) (fetchChunk (jobs.get i))⟩
  interrupted := false
  started _ _ := by decide
  finished _ _ := rfl

def fetchFirstByte : List CacheLabel :=
  let noProxy := PoolView.viewOf []
  let oneProxy := PoolView.viewOf ["http://10.0.0.1:8080"]
  let args := innerArgs buffered firstByte "http://origin.example/article" "-" 524288 none
  let jobs := [args.chunkJob ⟨0, 0, 0⟩ "http://10.0.0.1:8080"]
  [.arrive firstByte "-" none [104, 105], .store 0, .store 0,
    .answer 0 ⟨.fetch .headPicks (.pickProxy none ∅ true), noProxy⟩,
    .answer 0 ⟨.fetch .rangeProbe (.pickProxy none ∅ true), oneProxy⟩,
    .answer 0 ⟨.fetch .rangeProbe (.http (args.probe.rangeRequest "http://10.0.0.1:8080")),
      .ok ⟨206, [("Content-Range", "bytes 0-0/2")], [104], 0⟩⟩,
    .answer 0 ⟨.distribute 1 none none true 3, fun _ => oneProxy⟩,
    .answer 0 ⟨.chunkSizes ["http://10.0.0.1:8080"] 524288 65536 4194304, fun _ => 524288⟩,
    .answer 0 ⟨.gather 10 (args.budget 1) jobs, gatherFirstByte (args.budget 1) jobs⟩,
    .store 0, .store 0]

theorem not_cachesComplete_of_served {rep : Url → Bytes → Prop} {s : CacheSystem} {status : Nat}
    (hserved : servedFromL1 s status = true) (hstatus : status ≠ 200) : ¬ CachesComplete rep s := by
  intro h
  unfold servedFromL1 at hserved
  split at hserved
  · next r hr =>
    obtain ⟨f, hf, hprog⟩ := Option.map_eq_some_iff.mp hr
    obtain ⟨hcode, htag⟩ := of_decide_eq_true hserved
    have hcomplete := h.answers f (List.mem_of_getElem? hf) _ hprog ⟨_, by simp, htag⟩
    exact hstatus (hcode ▸ hcomplete.1)
  · cases hserved

/-- The part that one client asked for is stored and answers the next client, who asks for all. -/
theorem part_served_from_cache : ∃ s,
    (cacheMachine IsArticle buffered smallCache).Reachable s ∧ servedFromL1 s 206 = true ∧
      ¬ CachesComplete IsArticle s := by
  obtain ⟨s, hs, hserved⟩ := Machine.exists_reachable
    (M := cacheMachine IsArticle buffered smallCache) (P := fun s => servedFromL1 s 206 = true)
    (fetchFirstByte ++ askAgain) (by decide +kernel)
  exact ⟨s, hs, hserved, not_cachesComplete_of_served hserved (by decide)⟩

end ProxySplit
