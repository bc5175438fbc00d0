import ProxySplit.CacheTier
import ProxySplit.Handlers.CacheRuns
import ProxySplit.Handlers.Preparation

namespace ProxySplit

open Lib Prog

/-- A `Cache-Control` that keeps a response out of every cache. -/
def forbids (value : String) : Bool :=
  ["no-store", "no-cache", "private"].any fun word => word.toList <:+: value.toLower.toList

/-- The `n` of the first `max-age=n`. -/
def maxAge (value : String) : Option Nat :=
  let parts := (value.toLower.toList.splitOn ',').map PyText.strip
  (parts.find? fun part => "max-age=".toList.isPrefixOf part).bind fun part =>
    if part.drop 8 ≠ [] ∧ (part.drop 8).all PyText.isDigit then some (PyText.digitsValue (part.drop 8))
    else none

/-- The values of all `Cache-Control` lines. -/
def controlLines (headers : Headers) : List String :=
  (headers.filter fun h => h.1.toLower = "cache-control").map Prod.snd

/-- Where the body at hand comes from: the `Cache-Control` lines that it came with, and what of them is
left in the headers that go with it. -/
structure Origin where
  lines : List String
  kept : Option String

/-- The lines of the answer that `fetch_chunk` takes. -/
def ChunkJob.controlLines (job : ChunkJob) (tr : FetchTrace) : List String :=
  tr.flatMap fun
    | ⟨.http _, .ok resp⟩ =>
      if (resp.body.length : Int) = job.expectedSize then ProxySplit.controlLines resp.headers else []
    | _ => []

/-- The lines that came with the chunks, if these make up a body. -/
def GatherRun.controlLines {maxWorkers retryBudget : Nat} {jobs : List ChunkJob}
    (run : GatherRun maxWorkers retryBudget jobs) : List String :=
  if run.results.all fun r => r.toOption.isSome then
    (List.finRange jobs.length).flatMap fun i =>
      ((run.tasks i).map fun t => (jobs.get i).controlLines t.trace).getD []
  else []

def bodyOrigin : Monitor RequestEffect RequestAnswer Origin
  | _, .fetch .whole (.http _), .ok resp => ⟨controlLines resp.headers, none⟩
  | _, .fetch .revalidate (.http _), .ok resp =>
    ⟨controlLines resp.headers, dictGet (dictOf resp.headers) "Cache-Control"⟩
  | _, .gather .., run => ⟨run.controlLines, none⟩
  | o, _, _ => o

/-- A response with these `Cache-Control` lines is not stored if one of them forbids it, and what is
stored expires after the `max-age` of each. -/
def Honours (lines : List String) (accepted : Bool) (defaultTtl : PyFloat) (r : Cached) : Prop :=
  accepted = true → (∀ v ∈ lines, forbids v = false) ∧
    ∀ v ∈ lines, ∀ n, maxAge v = some n →
      ∀ now, (Held.of defaultTtl now r).expires = (PyFloat.fin n).addTo now.monotonic

/-- What is put into the caches honours the origin of its body. -/
def PutHonours (l1 : ResponseCache) (l2 : DiskCache) (o : Origin) :
    (e : RequestEffect) → RequestAnswer e → Prop
  | .cachePut _ r, _ => Honours o.lines (l1.accepts r) l1.defaultTtl r
  | .diskPut _ r, _ => Honours o.lines (l2.accepts r) l2.defaultTtl r
  | _, _ => True

def ttlOfValue (value : Option String) (defaultTtl : PyFloat) : PyFloat :=
  ttlOf (value.map fun v => ("Cache-Control", v)).toList defaultTtl

def ResponseCache.turnsAway (c : ResponseCache) (size : Nat) (ttl : PyFloat) : Bool :=
  ¬ (c.enabled ∧ size ≤ c.maxBody ∧ ¬ ttl.le 0)

def DiskCache.turnsAway (c : DiskCache) (size : Nat) (ttl : PyFloat) : Bool :=
  ¬ (size ≤ c.maxBody ∧ ¬ ttl.le 0 ∧ ttl ≠ .nan)

/-- Nothing is lost with the lines that a cache does not get to see: it turns the response away, the line
that it sees does, or the others ask for nothing else than what it does.  The `max-age` of the line that it
sees is a number that a `float` can be. -/
def NothingLost (o : Origin) (turnsAway : PyFloat → Bool) (defaultTtl : PyFloat) : Prop :=
  turnsAway (ttlOfValue o.kept defaultTtl) = true ∨ o.kept.any forbids = true ∨
    ∀ v ∈ o.lines, if o.kept = some v then ∀ n ∈ maxAge v, PyFloat.Exact n
      else forbids v = false ∧ ∀ n ∈ maxAge v, ttlOfValue o.kept defaultTtl = .fin n

instance (o : Origin) (turnsAway : PyFloat → Bool) (defaultTtl : PyFloat) :
    Decidable (NothingLost o turnsAway defaultTtl) := inferInstanceAs (Decidable (_ ∨ _))

def PutLosesNothing (l1 : ResponseCache) (l2 : DiskCache) (o : Origin) :
    (e : RequestEffect) → RequestAnswer e → Prop
  | .cachePut _ r, _ => NothingLost o (l1.turnsAway r.body.length) l1.defaultTtl
  | .diskPut _ r, _ => NothingLost o (l2.turnsAway r.body.length) l2.defaultTtl
  | _, _ => True

instance (l1 : ResponseCache) (l2 : DiskCache) (o : Origin) (e : RequestEffect)
    (x : RequestAnswer e) : Decidable (PutLosesNothing l1 l2 o e x) :=
  match e with
  | .cachePut _ r => inferInstanceAs (Decidable (NothingLost o (l1.turnsAway r.body.length) _))
  | .diskPut _ r => inferInstanceAs (Decidable (NothingLost o (l2.turnsAway r.body.length) _))
  | .fetch .. | .heads .. | .readPool _ | .prewarm .. | .distribute .. | .chunkSizes .. | .gather ..
  | .stream .. | .diverge | .readBody | .deadline | .cacheGet _ | .cacheValidators _ | .diskGet _ =>
    isTrue trivial

/-- The headers of a body that came with `Cache-Control` lines have what is kept of them. -/
def PutKeeps (o : Origin) : (e : RequestEffect) → RequestAnswer e → Prop
  | .cachePut _ r, _ => o.lines = [] ∨ dictGet r.headers "Cache-Control" = o.kept
  | .diskPut _ r, _ => o.lines = [] ∨ dictGet r.headers "Cache-Control" = o.kept
  | _, _ => True

def takenLines (job : ChunkJob) : Monitor FetchEffect FetchAnswer (List String)
  | lines, .http r, x => lines ++ job.controlLines [⟨.http r, x⟩]
  | lines, _, _ => lines

theorem after_takenLines {job : ChunkJob} {lines : List String} {tr : FetchTrace} :
    (takenLines job).after lines tr = lines ++ job.controlLines tr := by
  induction tr generalizing lines with
  | nil => exact (List.append_nil lines).symm
  | cons ev tr ih =>
    obtain ⟨e, x⟩ := ev
    have hstep : takenLines job lines e x = lines ++ job.controlLines [⟨e, x⟩] := by
      cases e with
      | http r => rfl
      | _ => exact (List.append_nil lines).symm
    rw [Monitor.after, ih, hstep, List.append_assoc, ChunkJob.controlLines, ChunkJob.controlLines,
      ← List.flatMap_append]
    rfl

theorem controlLines_of_fetchChunk {job : ChunkJob} {tr : FetchTrace} {res : ChunkResult}
    (hr : Runs (fetchChunk job) tr (.ok res)) :
    ∃ resp : HttpResponse, resp.body = res.data ∧ job.controlLines tr = controlLines resp.headers := by
  have hspec : KeepsWith (takenLines job) (fun _ _ => True) (fun _ _ _ => True) (fetchChunk job)
      (fun lines r => ∀ res, r = .ok res →
        ∃ resp : HttpResponse, resp.body = res.data ∧ lines = controlLines resp.headers) [] := by
    refine keepsWith_fetchAttempts (I := fun _ _ lines => lines = []) (J := fun _ _ lines => lines = [])
      ?_ ?_ ?_ ?_ ?_ rfl
    · intro left attempt lines e x hside hlines
      cases e with
      | http => exact hside.elim
      | _ => exact ⟨trivial, hlines⟩
    · exact fun _ _ _ _ => nofun
    · intro left attempt lines hlines
      exact keepsWith_takeRetrySlot (fun _ => ⟨fun _ => hlines, nofun⟩)
        fun _ _ => ⟨trivial, fun _ => ⟨fun _ => hlines, nofun⟩, fun _ _ _ => ⟨nofun, fun _ _ => nofun⟩⟩
    · exact fun _ _ _ _ _ hlines _ => ⟨trivial, fun _ => hlines, fun _ _ => nofun⟩
    · intro left attempt lines cur hlines
      subst hlines
      have hfailed : ∀ {lines : List String} {exc : PyExc}, lines = [] →
          ∀ exc', (.error exc : Except PyExc ChunkResult) = .error exc' →
            if exc'.isException then lines = [] else ∀ res, (.error exc' : Except PyExc ChunkResult) = .ok res →
              ∃ resp : HttpResponse, resp.body = res.data ∧ lines = controlLines resp.headers := by
        intro lines exc hnil exc' _
        split
        · exact hnil
        · exact nofun
      simp only [getRange, keepsWith_bind, keepsWith_call, true_and]
      intro answer _
      cases answer with
      | error exc => exact ⟨nofun, hfailed rfl⟩
      | ok resp =>
        dsimp only
        split
        · next hsize =>
          refine fun _ _ => ⟨trivial, fun _ _ => ⟨trivial, ?_, nofun⟩⟩
          rintro _ ⟨⟩ _ ⟨⟩
          refine ⟨resp, rfl, ?_⟩
          simp [takenLines, ChunkJob.controlLines, hsize]
        · next hsize =>
          refine ⟨nofun, hfailed ?_⟩
          simp [takenLines, ChunkJob.controlLines, hsize]
  have hend := hspec.run hr fun _ _ => trivial
  rw [after_takenLines, List.nil_append] at hend
  exact hend res rfl

section Values

variable {headers : Headers} {value : Option String} {v : String} {n : Nat} {d : PyFloat}

theorem forbidsStore_eq (h : dictGet headers "Cache-Control" = value) :
    forbidsStore headers = value.any forbids := by
  have heq : forbidsStore headers = forbids (value.getD "") := by
    rw [forbidsStore, forbids, cacheControl, h]
  rw [heq]
  cases value with
  | none => decide +kernel
  | some v => rfl

theorem ttlOf_eq (h : dictGet headers "Cache-Control" = value) :
    ttlOf headers d = ttlOfValue value d := by
  have heq : dictGet (value.map fun v => ("Cache-Control", v)).toList "Cache-Control" = value := by
    cases value with
    | none => rfl
    | some v => rfl
  rw [ttlOfValue, ttlOf, ttlOf, cacheControl, cacheControl, h, heq]

theorem ttl_of_maxAge (h : maxAge v = some n) : ttlOfValue (some v) d = .ofRat n := by
  obtain ⟨part, hpart, hdigits⟩ := Option.bind_eq_some_iff.mp h
  split at hdigits
  · next hall =>
    cases hdigits
    have hparse := PyFloat.parse_of_isDigit hall.1 (List.all_eq_true.mp hall.2)
    have hcontrol : cacheControl [("Cache-Control", v)] = v.toLower.toList := rfl
    simp only [ttlOfValue, Option.map_some, Option.toList_some, ttlOf, hcontrol, hpart, hparse,
      Option.getD_some]
  · cases hdigits

end Values

section Puts

variable {o : Origin} {l1 : ResponseCache} {l2 : DiskCache} {r : Cached}

theorem honours_iff {accepted : Bool} {turnsAway : PyFloat → Bool} {d : PyFloat}
    (hkeeps : o.lines = [] ∨ dictGet r.headers "Cache-Control" = o.kept)
    (hacc : accepted = (!forbidsStore r.headers && !turnsAway (ttlOf r.headers d))) :
    Honours o.lines accepted d r ↔ NothingLost o turnsAway d := by
  rcases hkeeps with hnone | hkept
  · constructor
    · intro _
      refine .inr (.inr ?_)
      rw [hnone]
      exact nofun
    · intro _ _
      rw [hnone]
      exact ⟨nofun, nofun⟩
  · rw [forbidsStore_eq hkept, ttlOf_eq hkept] at hacc
    constructor
    · intro h
      cases haway : turnsAway (ttlOfValue o.kept d) with
      | true => exact .inl haway
      | false =>
        cases hforb : o.kept.any forbids with
        | true => exact .inr (.inl hforb)
        | false =>
          obtain ⟨hlines, hages⟩ := h (by rw [hacc, haway, hforb]; rfl)
          have hfin : ∀ v ∈ o.lines, ∀ n ∈ maxAge v, ttlOfValue o.kept d = .fin n := by
            intro v hv n hn
            have hend := hages v hv n hn ⟨0, 0⟩
            rw [Held.of, ttlOf_eq hkept] at hend
            exact PyFloat.addTo_inj.mp hend
          refine .inr (.inr fun v hv => ?_)
          split
          · next hsame =>
            intro n hn
            rw [← PyFloat.ofRat_natCast_iff, ← ttl_of_maxAge hn, ← hsame]
            exact hfin v hv n hn
          · exact ⟨hlines v hv, hfin v hv⟩
    · intro h htrue
      rw [hacc, Bool.and_eq_true, Bool.not_eq_true', Bool.not_eq_true'] at htrue
      obtain ⟨hforb, haway⟩ := htrue
      have hagree : ∀ v ∈ o.lines, forbids v = false ∧
          ∀ n, maxAge v = some n → ttlOfValue o.kept d = .fin n := by
        intro v hv
        rcases h with h | h | h
        · exact absurd (haway.symm.trans h) Bool.false_ne_true
        · exact absurd (hforb.symm.trans h) Bool.false_ne_true
        · have hv := h v hv
          split at hv
          · next hsame =>
            rw [hsame] at hforb ⊢
            exact ⟨hforb, fun n hn => (ttl_of_maxAge hn).trans (PyFloat.ofRat_natCast_iff.mpr (hv n hn))⟩
          · exact hv
      refine ⟨fun v hv => (hagree v hv).1, fun v hv n hn now => ?_⟩
      rw [Held.of, ttlOf_eq hkept, (hagree v hv).2 n hn]

theorem putHonours_iff {e : RequestEffect} {x : RequestAnswer e} (h : PutKeeps o e x) :
    PutHonours l1 l2 o e x ↔ PutLosesNothing l1 l2 o e x := by
  cases e with
  | cachePut url r =>
    refine honours_iff h ?_
    simp only [ResponseCache.accepts, ResponseCache.turnsAway]
    grind
  | diskPut url r =>
    refine honours_iff h ?_
    simp only [DiskCache.accepts, DiskCache.turnsAway]
    grind
  | _ => exact Iff.rfl

end Puts

def CacheFree : (e : RequestEffect) → RequestAnswer e → Prop
  | .cachePut .., _ | .diskPut .., _ | .fetch .revalidate _, _ => False
  | _, _ => True

def Response.Unspoken (r : Response) : Prop := ∀ header ∈ r.headers, header.1 ≠ "Cache-Control"

def UnspokenOutcome (out : Except PyExc Outcome) : Prop :=
  ∀ r, out = .ok (.response r) → r.Unspoken

section Inner

variable {args : InnerArgs}

abbrev StoresNothing {α : Type} (p : Request α) (Q : α → Prop) : Prop :=
  Keeps (fun _ _ => True) CacheFree p Q

theorem storesNothing_of_preparing {α : Type} {p : Request α} {Q : α → Prop}
    (h : Keeps (fun _ _ => True) Preparing p Q) : StoresNothing p Q := by
  refine h.mono (fun _ _ h => h) (fun e x _ hprep => ?_) fun _ h => h
  cases e with
  | fetch part e =>
    cases part with
    | revalidate => exact hprep rfl
    | _ => trivial
  | cachePut | diskPut => exact hprep.elim
  | _ => trivial

theorem storesNothing_perform {e : RequestEffect} (h : ∀ x, CacheFree e x) :
    StoresNothing (perform e) fun _ => True := fun x _ => ⟨h x, trivial⟩

theorem storesNothing_fetchFallback {requestProxy : Option Url} {ct : String} :
    StoresNothing (fetchFallback args requestProxy ct) UnspokenOutcome := by
  refine (storesNothing_of_preparing (prepares_within (by decide))).bind fun r _ => ?_
  split
  · exact nofun
  · intro r hr
    cases hr
    exact nofun

theorem storesNothing_gatherChunks {n : Int} {ct : String} {w : Window} {ranges : List ChunkRange}
    {assigned : List Url} : StoresNothing (gatherChunks args n ct w ranges assigned) UnspokenOutcome := by
  unfold gatherChunks
  split
  · exact nofun
  · refine Keeps.bind (storesNothing_perform fun _ => trivial) fun run _ => ?_
    split
    · exact nofun
    · intro r hr header hmem
      rw [headers_of_assemble hr header hmem]
      decide

theorem storesNothing_fetchChunks {n : Int} {ct : String} {w : Window} {ranges : List ChunkRange}
    {assigned : List Url} : StoresNothing (fetchChunks args n ct w ranges assigned) UnspokenOutcome := by
  refine (storesNothing_of_preparing prepares_pickRace).bind fun raceProxy _ => ?_
  split
  · exact nofun
  · exact storesNothing_gatherChunks

theorem storesNothing_splitWindow {n : Int} {ct : String} {w : Window} :
    StoresNothing (splitWindow args n ct w) UnspokenOutcome := by
  refine (storesNothing_of_preparing prepares_prewarm).bind fun _ _ => ?_
  split
  · exact fun x => nomatch x
  · refine Keeps.bind (storesNothing_perform fun _ => trivial) fun views _ => ?_
    dsimp only
    split
    · refine Keeps.bind (storesNothing_perform fun _ => trivial) fun view _ => ?_
      intro r hr
      cases hr
      simp [Response.Unspoken, Response.ofText]
    · refine (storesNothing_of_preparing keeps_rebalance).bind fun out _ => ?_
      split
      · exact fun x => nomatch x
      · exact storesNothing_fetchChunks

theorem storesNothing_handleInner : StoresNothing (handleInner args) UnspokenOutcome := by
  refine (storesNothing_of_preparing prepares_pickRequestProxy).bind fun requestProxy _ => ?_
  refine (storesNothing_of_preparing prepares_resolveContentInfo).bind fun r _ => ?_
  split
  · exact nofun
  · unfold dispatch
    split
    · exact nofun
    · exact storesNothing_fetchFallback
    · split
      · exact storesNothing_fetchFallback
      · split
        · exact nofun
        · exact storesNothing_splitWindow

end Inner

abbrev ControlSpec {α : Type} (p : Request α) (Q : Origin → α → Prop) (o : Origin) : Prop :=
  KeepsWith bodyOrigin (fun _ _ => True) PutKeeps p Q o

section Handler

variable {cfg : RequestConfig} {req : ClientRequest} {url : Url} {rid : String} {o : Origin}

theorem putKeeps_of_cacheFree {e : RequestEffect} {x : RequestAnswer e} (ho : o.kept = none)
    (h : CacheFree e x) : PutKeeps o e x ∧ (bodyOrigin o e x).kept = none := by
  cases e with
  | cachePut | diskPut => exact h.elim
  | gather => exact ⟨trivial, rfl⟩
  | fetch part e =>
    cases part with
    | revalidate => exact h.elim
    | whole =>
      cases e with
      | http q =>
        cases x with
        | error exc => exact ⟨trivial, ho⟩
        | ok resp => exact ⟨trivial, rfl⟩
      | _ => exact ⟨trivial, ho⟩
    | _ => exact ⟨trivial, ho⟩
  | _ => exact ⟨trivial, ho⟩

theorem StoresNothing.control {α : Type} {p : Request α} {Q : α → Prop} (h : StoresNothing p Q)
    (ho : o.kept = none) : ControlSpec p (fun o a => o.kept = none ∧ Q a) o :=
  h.keepsWith (I := fun o : Origin => o.kept = none) (fun _ _ _ => putKeeps_of_cacheFree) ho

theorem ControlSpec.bind {α β : Type} {p : Request α} {f : α → Request β} {Q : Origin → α → Prop}
    {R : Origin → β → Prop} (hp : ControlSpec p Q o)
    (hf : ∀ o a, Q o a → ControlSpec (f a) R o) : ControlSpec (p >>= f) R o :=
  KeepsWith.bind hp hf

theorem ControlSpec.perform {e : RequestEffect} (h : ∀ x, PutKeeps o e x) :
    ControlSpec (ProxySplit.perform e) (fun o' x => o' = bodyOrigin o e x) o := fun x _ => ⟨h x, rfl⟩

theorem Response.Unspoken.dict {r : Response} (h : r.Unspoken) :
    dictGet r.dict "Cache-Control" = none := by
  rw [dictGet, Option.map_eq_none_iff, List.find?_eq_none]
  intro header hmem
  rcases List.mem_append.mp hmem with hmem | hmem
  · simpa using h header hmem
  · rw [List.mem_singleton.mp hmem]
    exact Bool.false_ne_true

theorem control_storeResponse {r : Response} (hr : r.Unspoken) (ho : o.kept = none) :
    ControlSpec (storeResponse req url r) (fun _ _ => True) o := by
  have hput : o.lines = [] ∨ dictGet r.dict "Cache-Control" = o.kept := .inr (hr.dict.trans ho.symm)
  unfold storeResponse
  split
  · exact fun _ _ => ⟨hput, fun _ _ => ⟨hput, trivial⟩⟩
  · trivial

theorem storesNothing_recover {exc : PyExc} : StoresNothing (recover cfg rid exc) fun _ => True := by
  unfold recover
  split
  · trivial
  · split
    · refine Keeps.bind (storesNothing_perform fun _ => trivial) fun passed _ => ?_
      split
      · trivial
      · trivial
    · trivial
  · trivial

theorem control_recover {exc : PyExc} (ho : o.kept = none) :
    ControlSpec (recover cfg rid exc) (fun _ _ => True) o :=
  (StoresNothing.control storesNothing_recover ho).mono fun _ _ _ => trivial

theorem control_respond {result : Except PyExc Outcome} (h : UnspokenOutcome result)
    (ho : o.kept = none) : ControlSpec (respond cfg req url rid result) (fun _ _ => True) o := by
  unfold respond
  split
  · exact control_recover ho
  · next outcome =>
    have hfinish : ControlSpec (finish req url rid outcome) (fun o r =>
        ∀ exc, r = .error exc → o.kept = none) o := by
      unfold finish
      split
      · next plan =>
        have hsend : StoresNothing (sendStream plan) fun _ => True := by
          unfold sendStream
          split
          · trivial
          · exact Keeps.bind (storesNothing_perform fun _ => trivial) fun _ _ => trivial
        refine (StoresNothing.control hsend ho).bind fun o₁ r h₁ => ?_
        split
        · exact fun _ _ => h₁.1
        · exact fun _ _ => h₁.1
      · next r =>
        refine (control_storeResponse (h r rfl) ho).bind fun o₁ _ _ => ?_
        exact nofun
    refine hfinish.bind fun o₁ r h₁ => ?_
    split
    · trivial
    · trivial
    · exact control_recover (h₁ _ rfl)

theorem control_serve {chunkSize : Int} {body : Option Bytes} (ho : o.kept = none) :
    ControlSpec (serve cfg req url rid chunkSize body) (fun _ _ => True) o :=
  (StoresNothing.control storesNothing_handleInner ho).bind fun _ _ h => control_respond h.2 h.1

theorem control_serveL1 {cached : Cached} :
    ControlSpec (serveL1 cfg req url rid cached) (fun _ _ => True) o := by
  unfold serveL1
  refine .bind (.perform fun _ => trivial) fun o₁ validators _ => ?_
  dsimp only
  split
  · trivial
  · rw [revalidationGet, pickProxy, bind_assoc, within_bind, bind_assoc]
    refine .bind (.perform fun _ => trivial) fun o₂ view _ => ?_
    refine .bind (.perform fun _ => trivial) fun o₃ r h₃ => ?_
    split
    · split
      · trivial
      · trivial
    · next resp =>
      split
      · trivial
      · split
        · subst h₃
          exact .bind (.perform fun _ => .inr rfl) fun _ _ _ => trivial
        · trivial

theorem control_serveL2 (ho : o.lines = [] ∧ o.kept = none) :
    ControlSpec (serveL2 url rid) (fun o _ => o.kept = none) o := by
  unfold serveL2
  refine .bind (.perform fun _ => trivial) fun o₁ hit h₁ => ?_
  obtain rfl : o₁ = o := h₁
  split
  · exact ho.2
  · exact ho.2
  · refine .bind (.perform fun _ => .inl ho.1) fun o₂ _ h₂ => ?_
    obtain rfl : o₂ = o₁ := h₂
    exact ho.2

theorem control_serveCached (ho : o.lines = [] ∧ o.kept = none) :
    ControlSpec (serveCached cfg req url rid) (fun o r => r = .ok none → o.kept = none) o := by
  unfold serveCached
  split
  · refine .bind (.perform fun _ => trivial) fun o₁ hit h₁ => ?_
    obtain rfl : o₁ = o := h₁
    split
    · refine control_serveL1.bind fun o₂ r _ => ?_
      split
      · exact nofun
      · exact nofun
    · exact (control_serveL2 ho).mono fun _ _ h _ => h
  · exact fun _ => ho.2

theorem control_handleRequest {sizer : Option Int} (ho : o.lines = [] ∧ o.kept = none) :
    ControlSpec (handleRequest cfg req rid sizer) (fun _ _ => True) o := by
  unfold handleRequest
  split
  · trivial
  · split
    · refine (control_serveCached ho).bind fun o₁ r h₁ => ?_
      split
      · trivial
      · trivial
      · have hbody : StoresNothing (readBody req) fun _ => True := by
          unfold readBody
          split
          · refine Keeps.bind (storesNothing_perform fun _ => trivial) fun r _ => ?_
            split
            · trivial
            · trivial
          · trivial
        refine (StoresNothing.control hbody (h₁ rfl)).bind fun o₂ r h₂ => ?_
        split
        · trivial
        · exact control_serve h₂.1
    · trivial

end Handler

/-- What a request puts into the caches honours the `Cache-Control` that its body came with, exactly
when nothing of that is lost on the way. -/
theorem putsHonour_iff (cfg : RequestConfig) (req : ClientRequest) (rid : String)
    (sizer : Option Int) (l1 : ResponseCache) (l2 : DiskCache) (tr : RequestTrace)
    (rest : Request Reply) (h : Steps (handleRequest cfg req rid sizer) tr rest) :
    bodyOrigin.Always (PutHonours l1 l2) ⟨[], none⟩ tr ↔
      bodyOrigin.Always (PutLosesNothing l1 l2) ⟨[], none⟩ tr := by
  have hkeeps := (control_handleRequest (o := ⟨[], none⟩) ⟨rfl, rfl⟩).always h fun _ _ => trivial
  exact hkeeps.congr fun _ _ _ => putHonours_iff

def articleWith (headers : Headers) : (e : RequestEffect) → Option (RequestAnswer e)
  | .fetch .whole (.pickProxy ..) =>
    some (PoolView.viewOf ["http://10.0.0.1:8080"])
  | .fetch _ (.pickProxy ..) => some (PoolView.viewOf [])
  | .fetch _ (.allowRequest _) => some ⟨.new 5 60 3600, 0, .new 5 60 3600, 0⟩
  | .fetch _ (.http _) => some (.ok ⟨200, headers, [104, 105], 0⟩)
  | .fetch _ (.recordSuccess ..) => some ()
  | .cacheGet _ => some none
  | .diskGet _ => some (.ok none)
  | .cachePut .. => some ()
  | .diskPut .. => some ()
  | _ => none

theorem putsHonour_default_age : ∃ tr reply, Runs (handleRequest {} article "-" none) tr reply ∧
    bodyOrigin.Always (PutHonours smallL1 { smallL2 with defaultTtl := .fin 300 }) ⟨[], none⟩ tr := by
  have hrun : ((handleRequest {} article "-" none).execWith
      (articleWith [("Cache-Control", "max-age=300")])).any (fun run =>
        bodyOrigin.Always (PutLosesNothing smallL1 { smallL2 with defaultTtl := .fin 300 })
          ⟨[], none⟩ run.1) = true := by decide +kernel
  obtain ⟨tr, reply, hr, hcheck⟩ := exists_runs_of_any hrun
  exact ⟨tr, reply, hr, (putsHonour_iff {} article "-" none _ _ tr _ hr.steps).mpr
    (of_decide_eq_true hcheck)⟩

/-- The article is stored although its origin forbids it. -/
theorem noStore_stored : ∃ tr reply, Runs (handleRequest {} article "-" none) tr reply ∧
    ¬ bodyOrigin.Always (PutHonours smallL1 smallL2) ⟨[], none⟩ tr := by
  have hrun : ((handleRequest {} article "-" none).execWith
      (articleWith [("Cache-Control", "no-store")])).any (fun run =>
        ¬ bodyOrigin.Always (PutLosesNothing smallL1 smallL2) ⟨[], none⟩ run.1) = true := by
    decide +kernel
  obtain ⟨tr, reply, hr, hcheck⟩ := exists_runs_of_any hrun
  have hkeeps := (control_handleRequest (o := ⟨[], none⟩) ⟨rfl, rfl⟩).always hr.steps
    fun _ _ => trivial
  refine ⟨tr, reply, hr, fun hall => of_decide_eq_true hcheck ?_⟩
  exact (hkeeps.congr fun _ _ _ => putHonours_iff).mp hall

end ProxySplit
