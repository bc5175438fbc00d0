import ProxySplit.Fetchers.Chunk

namespace ProxySplit

open Lib Prog

def inUse : Monitor FetchEffect FetchAnswer Url
  | current, .pickProxy pool excludeSet weighted, view =>
    (truthy ((view : PoolView).pickProxy pool excludeSet none weighted)).getD current
  | current, _, _ => current

def SendsInUse (current : Url) : (e : FetchEffect) → FetchAnswer e → Prop
  | .http r, _ => r.session = some current
  | _, _ => True

def SendsOn (p : Url) (current : Url) : (e : FetchEffect) → FetchAnswer e → Prop
  | .http _, _ => current = p ∧ (startsWith p "socks" = true ∨ startsWith p "http" = true)
  | _, _ => True

def GoesThrough (p : Url) : (e : FetchEffect) → FetchAnswer e → Prop
  | .http r, _ => r.via = some p
  | _, _ => True

instance (p current : Url) (e : FetchEffect) (x : FetchAnswer e) : Decidable (SendsOn p current e x) :=
  match e with
  | .http _ => inferInstanceAs (Decidable (_ ∧ _))
  | .pickProxy .. | .allowRequest _ | .acquireRetrySlot | .acquireLimiter _ | .recordSuccess ..
  | .recordFailure _ | .recordChunk _ | .invalidateSession _ => isTrue trivial

instance (p : Url) (e : FetchEffect) (x : FetchAnswer e) : Decidable (GoesThrough p e x) :=
  match e with
  | .http r => inferInstanceAs (Decidable (r.via = some p))
  | .pickProxy .. | .allowRequest _ | .acquireRetrySlot | .acquireLimiter _ | .recordSuccess ..
  | .recordFailure _ | .recordChunk _ | .invalidateSession _ => isTrue trivial

/-- The fetch that starts with the proxy `start` makes all its GETs while `p` is in use. -/
def StaysOn (p start : Url) (tr : FetchTrace) : Prop := inUse.Always (SendsOn p) start tr

instance (p start : Url) (tr : FetchTrace) : Decidable (StaysOn p start tr) :=
  inferInstanceAs (Decidable (Monitor.Always ..))

theorem HttpRequest.via_eq_some_iff {r : HttpRequest} {current p : Url}
    (hr : r.session = some current) : r.via = some p ↔
      current = p ∧ (startsWith p "socks" = true ∨ startsWith p "http" = true) := by
  have hvia : r.via = if startsWith current "socks" = true ∨ startsWith current "http" = true then
      some current else none := by
    by_cases hempty : current = ""
    · subst hempty
      rw [if_neg (by decide)]
      simp [via, makeConnector, httpProxyParam, hr, truthy]
    · have htruthy : truthy (some current) = some current := if_neg hempty
      simp only [via, makeConnector, httpProxyParam, hr, htruthy]
      by_cases hsocks : startsWith current "socks" = true <;> simp [hsocks]
  rw [hvia]
  constructor
  · intro h
    split at h
    · next hscheme =>
      cases h
      exact ⟨rfl, hscheme⟩
    · cases h
  · rintro ⟨rfl, hscheme⟩
    exact if_pos hscheme

variable {job : ChunkJob} {current : Url}

abbrev Tracks {α : Type} (p : Fetch α) (Q : Url → α → Prop) (current : Url) : Prop :=
  KeepsWith inUse (fun _ _ => True) SendsInUse p Q current

theorem tracks_pickOther {pool : Option String} {excludeSet : Finset Url} {weighted : Bool} :
    Tracks (pickOther pool excludeSet weighted) (fun next alt => next = alt.getD current) current :=
  fun _ _ => ⟨trivial, rfl⟩

theorem tracks_checkBreaker :
    Tracks (checkBreaker job current) (fun next cur => next = cur) current := by
  intro view _
  refine ⟨trivial, ?_⟩
  change Tracks (if view.answer current then _ else _) _ current
  split
  · rfl
  · exact tracks_pickOther.bind fun _ _ h => h

theorem tracks_nextProxy {left : Nat} :
    Tracks (nextProxy job current left) (fun next cur => next = cur) current := by
  unfold nextProxy
  split
  · exact tracks_pickOther.bind fun _ _ h => h
  · rfl

def Steady : (e : FetchEffect) → FetchAnswer e → Prop
  | .pickProxy .., _ | .http _, _ => False
  | _, _ => True

theorem tracks_of_steady {α : Type} {p : Fetch α} (h : Keeps (fun _ _ => True) Steady p fun _ => True) :
    Tracks p (fun next _ => next = current) current := by
  refine KeepsWith.mono (fun _ _ h => h.1) (h.keepsWith (I := fun cur => cur = current) ?_ rfl)
  rintro cur e x rfl hsteady
  cases e with
  | pickProxy | http => exact hsteady.elim
  | _ => exact ⟨trivial, rfl⟩

theorem steady_ask {e : FetchEffect} (h : ∀ x, Steady e x) :
    Keeps (fun _ _ => True) Steady (ask e) fun _ => True := fun x _ => ⟨h x, trivial⟩

theorem steady_takeRetrySlot {attempt : Nat} :
    Keeps (fun _ _ => True) Steady (takeRetrySlot job attempt) fun _ => True := by
  unfold takeRetrySlot
  split
  · refine Keeps.bind (steady_ask fun _ => trivial) fun r _ => ?_
    split
    · trivial
    · trivial
    · trivial
    · trivial
  · trivial

theorem steady_recordChunkFailure {exc : PyExc} :
    Keeps (fun _ _ => True) Steady (recordChunkFailure current exc) fun _ => True := by
  unfold recordChunkFailure
  split
  · exact Keeps.bind (steady_ask fun _ => trivial) fun _ _ => steady_ask fun _ => trivial
  · exact steady_ask fun _ => trivial

theorem tracks_getRange : Tracks (getRange job current) (fun next _ => next = current) current := by
  intro answer _
  refine ⟨rfl, ?_⟩
  cases answer with
  | error exc => rfl
  | ok resp =>
    change Tracks (if (resp.body.length : Int) = job.expectedSize then _ else _) _ current
    split
    · refine tracks_of_steady (Keeps.bind (steady_ask fun _ => trivial) fun _ _ => ?_)
      exact Keeps.bind (steady_ask fun _ => trivial) fun _ _ => trivial
    · rfl

theorem tracks_fetchAttempts {left attempt : Nat} {lastExc : PyExc} :
    Tracks (fetchAttempts job left attempt current lastExc) (fun _ _ => True) current := by
  induction left generalizing attempt current lastExc with
  | zero => trivial
  | succ left ih =>
    refine tracks_checkBreaker.bind ?_
    rintro cur _ rfl
    refine (tracks_of_steady steady_takeRetrySlot).bind ?_
    rintro cur slot rfl
    cases slot with
    | error exc => trivial
    | ok _ =>
      refine (tracks_of_steady (p := ask (.acquireLimiter cur)) (steady_ask fun _ => trivial)).bind ?_
      rintro cur limiter rfl
      cases limiter with
      | error exc => trivial
      | ok _ =>
        refine tracks_getRange.bind ?_
        rintro cur res rfl
        cases res with
        | ok res => trivial
        | error exc =>
          dsimp only
          split
          · refine (tracks_of_steady steady_recordChunkFailure).bind ?_
            rintro cur - rfl
            refine tracks_nextProxy.bind ?_
            rintro cur _ rfl
            exact ih
          · trivial

/-- However far a fetch gets, its GETs go through `p` exactly if it makes them all while `p` is in use. -/
theorem goesThrough_iff {p : Url} {tr : FetchTrace} {q : Fetch (Except PyExc ChunkResult)}
    (hs : Steps (fetchChunk job) tr q) :
    (∀ ev ∈ tr, GoesThrough p ev.1 ev.2) ↔ StaysOn p job.proxyUrl tr := by
  have hsends : inUse.Always SendsInUse job.proxyUrl tr :=
    tracks_fetchAttempts.always hs fun _ _ => trivial
  rw [← Monitor.always_iff_forall (m := inUse) (s := job.proxyUrl)]
  refine hsends.congr fun cur e x hsend => ?_
  cases e with
  | http r => exact HttpRequest.via_eq_some_iff hsend
  | _ => exact Iff.rfl

end ProxySplit
