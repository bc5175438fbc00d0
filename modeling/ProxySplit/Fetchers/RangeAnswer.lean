import ProxySplit.Fetchers.BreakerUse
import ProxySplit.Lib.Tiling

namespace ProxySplit

open Lib Prog

def lastAnswer : Monitor FetchEffect FetchAnswer (Option HttpResponse)
  | _, .http _, .ok resp => some resp
  | _, .http _, .error _ => none
  | last, _, _ => last

/-- A 206 has the bytes of the range and nothing else, whatever other answers have. -/
def Genuine (resource : Bytes) (job : ChunkJob) : (e : FetchEffect) → FetchAnswer e → Prop
  | .http _, .ok resp => resp.status = 206 → resp.body = slice resource job.start job.stop
  | _, _ => True

def RecordsRange (last : Option HttpResponse) : (e : FetchEffect) → FetchAnswer e → Prop
  | .recordSuccess .., _ => ∃ resp, last = some resp ∧ resp.status = 206
  | _, _ => True

/-- What the fetch records and returns are the bytes of the range, out of a 206. -/
structure AcceptsRange (resource : Bytes) (job : ChunkJob) (tr : FetchTrace)
    (out : Except PyExc ChunkResult) : Prop where
  recorded : lastAnswer.Always RecordsRange none tr
  returned : ∀ res, out = .ok res →
    res.status = 206 ∧ res.data = slice resource job.start job.stop

/-- An answer that is no 206 does not have the length of the range. -/
def NoImpostor (job : ChunkJob) : (e : FetchEffect) → FetchAnswer e → Prop
  | .http _, .ok resp => resp.status = 206 ∨ (resp.body.length : Int) ≠ job.expectedSize
  | _, _ => True

instance (job : ChunkJob) (e : FetchEffect) (x : FetchAnswer e) : Decidable (NoImpostor job e x) :=
  match e, x with
  | .http _, .ok _ => inferInstanceAs (Decidable (_ ∨ _))
  | .http _, .error _ => isTrue trivial
  | .pickProxy .., _ | .allowRequest _, _ | .acquireRetrySlot, _ | .acquireLimiter _, _
  | .recordSuccess .., _ | .recordFailure _, _ | .recordChunk _, _ | .invalidateSession _, _ =>
    isTrue trivial

def Passes (job : ChunkJob) (last : Option HttpResponse) : Prop :=
  ∃ resp, last = some resp ∧ (resp.body.length : Int) = job.expectedSize

def StopsAtFit (job : ChunkJob) (last : Option HttpResponse) : (e : FetchEffect) → FetchAnswer e → Prop
  | .http _, _ => ¬ Passes job last
  | .recordSuccess .., _ => Passes job last
  | _, _ => True

def ReturnsLast (job : ChunkJob) (last : Option HttpResponse) : Except PyExc ChunkResult → Prop
  | .ok res => ∃ resp, last = some resp ∧ (resp.body.length : Int) = job.expectedSize ∧
      res.data = resp.body ∧ res.status = resp.status
  | .error _ => ¬ Passes job last

variable {job : ChunkJob} {last : Option HttpResponse}

abbrev Stops {α : Type} (job : ChunkJob) (p : Fetch α) (Q : Option HttpResponse → α → Prop)
    (last : Option HttpResponse) : Prop :=
  KeepsWith lastAnswer (fun _ _ => True) (StopsAtFit job) p Q last

theorem stops_takeRetrySlot {attempt : Nat} (hlast : ¬ Passes job last) :
    Stops job (takeRetrySlot job attempt) (fun last' _ => ¬ Passes job last') last := by
  refine keepsWith_takeRetrySlot (fun _ => hlast) fun _ answer => ?_
  exact ⟨trivial, fun _ => hlast, fun _ _ _ => hlast⟩

theorem stops_getRange {current : Url} (hlast : ¬ Passes job last) :
    Stops job (getRange job current) (ReturnsLast job) last := by
  intro answer _
  refine ⟨hlast, ?_⟩
  cases answer with
  | error exc => exact nofun
  | ok resp =>
    change Stops job (if (resp.body.length : Int) = job.expectedSize then _ else _) _ (some resp)
    split
    · next hlen => exact fun _ _ => ⟨⟨resp, rfl, hlen⟩, fun _ _ => ⟨trivial, resp, rfl, hlen, rfl, rfl⟩⟩
    · next hlen =>
      rintro ⟨_, ⟨⟩, hlen'⟩
      exact hlen hlen'

theorem stops_fetchAttempts {left attempt : Nat} {current : Url} {lastExc : PyExc}
    (hlast : ¬ Passes job last) :
    Stops job (fetchAttempts job left attempt current lastExc) (ReturnsLast job) last := by
  refine keepsWith_fetchAttempts (I := fun _ _ last => ¬ Passes job last)
    (J := fun _ _ last => ¬ Passes job last) ?_ (fun _ _ _ hs => hs) ?_ ?_ ?_ hlast
  · intro left attempt s e x hside hs
    cases e with
    | http | recordSuccess => exact hside.elim
    | _ => exact ⟨trivial, hs⟩
  · exact fun _ _ _ hs => (stops_takeRetrySlot hs).mono fun _ _ hs => ⟨fun _ => hs, fun _ _ => hs⟩
  · exact fun _ _ _ _ _ hs _ => ⟨trivial, fun _ => hs, fun _ _ => hs⟩
  · intro left attempt s cur hs
    refine (stops_getRange hs).mono fun last out hout => ?_
    constructor
    · rintro res rfl
      exact hout
    · rintro exc rfl
      exact (ite_self _).mpr hout

theorem after_of_stopsAtFit {tr : FetchTrace} (h : lastAnswer.Always (StopsAtFit job) last tr) :
    (Passes job last → lastAnswer.after last tr = last) ∧
      ∀ req resp, (⟨.http req, .ok resp⟩ : Event FetchEffect FetchAnswer) ∈ tr →
        (resp.body.length : Int) = job.expectedSize → lastAnswer.after last tr = some resp := by
  induction tr generalizing last with
  | nil => exact ⟨fun _ => rfl, nofun⟩
  | cons ev tr ih =>
    obtain ⟨e, x⟩ := ev
    obtain ⟨hgood, hrest⟩ := h
    obtain ⟨hkept, hlater⟩ := ih hrest
    constructor
    · intro hfit
      have hsame : lastAnswer last e x = last := by
        cases e with
        | http => exact absurd hfit hgood
        | _ => rfl
      rw [Monitor.after, hsame]
      rw [hsame] at hkept
      exact hkept hfit
    · intro req resp hmem hlen
      rcases List.mem_cons.mp hmem with heq | hmem
      · cases heq
        exact hkept ⟨resp, rfl, hlen⟩
      · exact hlater req resp hmem hlen

def FromRange (resource : Bytes) (job : ChunkJob) (last : Option HttpResponse) : Prop :=
  ∀ resp, last = some resp → (resp.body.length : Int) = job.expectedSize →
    resp.status = 206 ∧ resp.body = slice resource job.start job.stop

theorem FromRange.step {resource : Bytes} {e : FetchEffect} {x : FetchAnswer e}
    (h : FromRange resource job last) (hx : NoImpostor job e x ∧ Genuine resource job e x)
    (hgood : StopsAtFit job last e x) :
    RecordsRange last e x ∧ FromRange resource job (lastAnswer last e x) := by
  cases e with
  | http req =>
    refine ⟨trivial, ?_⟩
    cases x with
    | error exc => exact nofun
    | ok resp =>
      rintro _ ⟨⟩ hlen
      have hstatus : resp.status = 206 := hx.1.resolve_right (not_not.mpr hlen)
      exact ⟨hstatus, hx.2 hstatus⟩
  | recordSuccess =>
    obtain ⟨resp, hresp, hlen⟩ := hgood
    exact ⟨⟨resp, hresp, (h resp hresp hlen).1⟩, h⟩
  | _ => exact ⟨trivial, h⟩

/-- A fetch records and returns nothing but the bytes of its range exactly if no answer other than a 206
has the length of the range. -/
theorem acceptsRange_iff (job : ChunkJob) (resource : Bytes) (tr : FetchTrace)
    (out : Except PyExc ChunkResult) (hr : Runs (fetchChunk job) tr out)
    (hgenuine : ∀ ev ∈ tr, Genuine resource job ev.1 ev.2) :
    AcceptsRange resource job tr out ↔ ∀ ev ∈ tr, NoImpostor job ev.1 ev.2 := by
  have hstops : Stops job (fetchChunk job) (ReturnsLast job) none :=
    stops_fetchAttempts (by rintro ⟨_, ⟨⟩, -⟩)
  have halways := hstops.always hr.steps fun _ _ => trivial
  have hout : ReturnsLast job (lastAnswer.after none tr) out := hstops.steps hr.steps fun _ _ => trivial
  constructor
  · rintro ⟨-, hreturned⟩ ⟨e, x⟩ hev
    cases e with
    | http req =>
      cases x with
      | error exc => trivial
      | ok resp =>
        refine or_iff_not_imp_right.mpr fun hlen => ?_
        have hafter := (after_of_stopsAtFit halways).2 req resp hev (not_not.mp hlen)
        rw [hafter] at hout
        cases out with
        | error exc => exact absurd ⟨resp, rfl, not_not.mp hlen⟩ hout
        | ok res =>
          obtain ⟨_, ⟨⟩, -, -, hstatus⟩ := hout
          exact hstatus.symm.trans (hreturned res rfl).1
    | _ => trivial
  · intro hno
    have hkept : lastAnswer.Always RecordsRange none tr ∧
        FromRange resource job (lastAnswer.after none tr) :=
      halways.of_invariant (P := fun e x => NoImpostor job e x ∧ Genuine resource job e x)
        (fun ev hev => ⟨hno ev hev, hgenuine ev hev⟩) nofun fun _ _ _ => FromRange.step
    obtain ⟨hrecorded, hlast⟩ := hkept
    refine ⟨hrecorded, ?_⟩
    rintro res rfl
    obtain ⟨resp, hresp, hlen, hdata, hstatus⟩ := hout
    obtain ⟨hstatus', hbody⟩ := hlast resp hresp hlen
    exact ⟨hstatus.trans hstatus', hdata.trans hbody⟩

theorem acceptsRange_of_partial :
    AcceptsRange [0, 1] soloJob ((fetchChunk soloJob).exec (answering (.new 1 60 3600) [0, 1])).1
      ((fetchChunk soloJob).exec (answering (.new 1 60 3600) [0, 1])).2 := by
  refine (acceptsRange_iff soloJob [0, 1] _ _ (runs_exec _ _) ?_).mpr ?_
  · intro ev hev
    obtain ⟨e, x⟩ := ev
    obtain rfl : x = answering (.new 1 60 3600) [0, 1] e := exec_events _ _ _ hev
    cases e with
    | http req => exact fun _ => rfl
    | _ => trivial
  · decide +kernel

def notFound (page : Bytes) : (e : FetchEffect) → FetchAnswer e
  | .http _ => .ok ⟨404, [], page, 12⟩
  | e => answering (.new 1 60 3600) [] e

/-- A page of two bytes becomes the two bytes of the chunk. -/
theorem error_page_accepted :
    ¬ ∀ (job : ChunkJob) (resource : Bytes) (tr : FetchTrace) (out : Except PyExc ChunkResult),
      Runs (fetchChunk job) tr out → (∀ ev ∈ tr, Genuine resource job ev.1 ev.2) →
        AcceptsRange resource job tr out := by
  intro h
  have haccepts := h soloJob [0, 1] _ _ (runs_exec (notFound [52, 52]) _) (by
    intro ev hev
    obtain ⟨e, x⟩ := ev
    obtain rfl : x = notFound [52, 52] e := exec_events _ _ _ hev
    cases e with
    | http req => exact nofun
    | _ => trivial)
  exact absurd (haccepts.returned ⟨0, [52, 52], 404, soloJob.proxyUrl⟩ (by decide +kernel)).1 (by decide)

end ProxySplit
