import ProxySplit.Fetchers.Chunk
import ProxySplit.Fetchers.Head

namespace ProxySplit

open Lib Prog

/-- What the `allow_request` of the current attempt asked and found, and whether the requests
sent so far went to a proxy it let through. -/
structure Watch where
  asked : Option (Url × AllowView)
  obeyed : Bool

def permits (asked : Option (Url × AllowView)) (req : HttpRequest) : Bool :=
  match asked with
  | none => false
  | some (p, v) =>
    req.session = some p ∧ v.answer p = true ∧ ¬ (v.seen p).1.Barred (v.seen p).2 p

def watch : Monitor FetchEffect FetchAnswer Watch
  | s, .allowRequest p, v => { s with asked := some (p, v) }
  | s, .http req, _ => ⟨none, s.obeyed && permits s.asked req⟩
  | s, _, _ => s

/-- Every request of the run was allowed by the breaker in its own attempt. -/
def ObeysBreaker (tr : FetchTrace) : Prop := (watch.after ⟨none, true⟩ tr).obeyed = true

instance (tr : FetchTrace) : Decidable (ObeysBreaker tr) := inferInstanceAs (Decidable (_ = true))

structure Denials where
  denied : Bool
  stopped : Bool

def denials : Monitor FetchEffect FetchAnswer Denials
  | s, .allowRequest p, v => { s with denied := !v.answer p }
  | s, .acquireLimiter _, .ok () => { s with stopped := s.stopped && !s.denied }
  | s, _, _ => s

def DenialsStop (tr : FetchTrace) : Prop := (denials.after ⟨false, true⟩ tr).stopped = true

instance (tr : FetchTrace) : Decidable (DenialsStop tr) := inferInstanceAs (Decidable (_ = true))

def allAllowed : Monitor FetchEffect FetchAnswer Bool
  | ok, .allowRequest p, v => ok && v.answer p
  | ok, .pickProxy pool excludeSet weighted, v =>
    ok && (excludeSet.Nonempty || (truthy (v.pickProxy pool excludeSet none weighted)).isSome)
  | ok, _, _ => ok

def AllAllowed (tr : FetchTrace) : Prop := allAllowed.after true tr = true

instance (tr : FetchTrace) : Decidable (AllAllowed tr) := inferInstanceAs (Decidable (_ = true))

theorem permits_of_answer {p : Url} {v : AllowView} {req : HttpRequest}
    (h : v.answer p = true) (hreq : req.session = some p) : permits (some (p, v)) req = true := by
  simp [permits, hreq, h, AllowView.not_barred_of_answer h]

theorem permits_of_denied {p : Url} {v : AllowView} {req : HttpRequest}
    (h : v.answer p = false) : permits (some (p, v)) req = false := by
  simp [permits, h]

section Chunk

variable {Q : Watch × Denials → α → Prop} {w : Watch} {d : Denials} {job : ChunkJob}

theorem wp_checkBreaker {current : Url} {Q : Watch × Denials → Url → Prop}
    (h : ∀ v cur, (v.answer current = true → cur = current) →
      Q (⟨some (current, v), w.obeyed⟩, ⟨!v.answer current, d.stopped⟩) cur) :
    wp (watch.prod denials) (checkBreaker job current) Q (w, d) := by
  simp only [checkBreaker, pickOther, pickProxy, wp_bind, wp_call]
  intro v
  split
  · next hv =>
    exact h v current fun _ => rfl
  · next hv =>
    simp only [wp_bind, wp_call, wp_pure']
    intro view
    exact h v _ fun hv' => absurd hv' hv

theorem wp_takeRetrySlot {attempt : Nat} {Q : Watch × Denials → Except PyExc Unit → Prop}
    {s : Watch × Denials} (h : ∀ r, Q s r) :
    wp (watch.prod denials) (takeRetrySlot job attempt) Q s := by
  unfold takeRetrySlot
  split
  · simp only [wp_bind, wp_call]
    intro r
    split <;> exact h _
  · exact h _

theorem wp_getRange {current : Url} {Q : Watch × Denials → Except PyExc ChunkResult → Prop}
    (h : ∀ r, Q (⟨none, w.obeyed && permits w.asked (job.request current)⟩, d) r) :
    wp (watch.prod denials) (getRange job current) Q (w, d) := by
  simp only [getRange, wp_bind, wp_call]
  intro r
  split
  · exact h _
  · split
    · simp only [wp_bind, wp_call]
      exact fun _ _ => h _
    · exact h _

theorem wp_recordChunkFailure {current : Url} {exc : PyExc} {Q : Watch × Denials → Unit → Prop}
    {s : Watch × Denials} (h : Q s ()) :
    wp (watch.prod denials) (recordChunkFailure current exc) Q s := by
  unfold recordChunkFailure
  split
  · simp only [wp_bind, wp_call]
    exact fun _ _ => h
  · exact fun _ => h

theorem wp_nextProxy {current : Url} {left : Nat} {Q : Watch × Denials → Url → Prop}
    {s : Watch × Denials} (h : ∀ p, Q s p) :
    wp (watch.prod denials) (nextProxy job current left) Q s := by
  unfold nextProxy
  split
  · simp only [pickOther, pickProxy, wp_bind, wp_call]
    exact fun _ => h _
  · exact h _

/-- In the attempt the breaker denied, the request it sends is one the breaker did not permit. -/
theorem wp_fetchAttempts {left attempt : Nat} {current : Url} {lastExc : PyExc}
    (h : w.obeyed = d.stopped) :
    wp (watch.prod denials) (fetchAttempts job left attempt current lastExc)
      (fun s _ => s.1.obeyed = s.2.stopped) (w, d) := by
  induction left generalizing attempt current lastExc w d with
  | zero => exact h
  | succ left ih =>
    rw [fetchAttempts, wp_bind]
    apply wp_checkBreaker
    intro v cur hcur
    rw [wp_bind]
    apply wp_takeRetrySlot
    intro slot
    split
    · exact h
    simp only [wp_bind, wp_call]
    intro limiter
    split
    · exact h
    rw [wp_bind]
    apply wp_getRange
    intro res
    have heq : (w.obeyed && permits (some (current, v)) (job.request cur)) =
        (d.stopped && !!v.answer current) := by
      cases hv : v.answer current with
      | true =>
        have hreq : (job.request cur).session = some current := by rw [hcur hv]; rfl
        simp [permits_of_answer hv hreq, h]
      | false => simp [permits_of_denied hv]
    split
    · exact heq
    · split
      · rw [wp_bind]
        apply wp_recordChunkFailure
        rw [wp_bind]
        apply wp_nextProxy
        exact fun p => ih heq
      · exact heq

theorem wp_fetchChunk (job : ChunkJob) :
    wp (watch.prod denials) (fetchChunk job) (fun s _ => s.1.obeyed = s.2.stopped)
      (⟨none, true⟩, ⟨false, true⟩) := wp_fetchAttempts rfl

end Chunk

section Whole

variable {ok : Bool} {w : Watch} {job : WholeJob} {current : Option Url}

theorem allAllowed_pick_of_nonempty {pool : Option String} {excludeSet : Finset Url}
    {weighted : Bool} {v : PoolView} (h : excludeSet.Nonempty) :
    allAllowed ok (.pickProxy pool excludeSet weighted) v = ok := by
  simp [allAllowed, h]

theorem wp_checkBreakerWhole {Q : Watch × Bool → Option Url → Prop} (hasked : w.asked = none)
    (hnone : truthy current = none → ok = false)
    (hsome : (truthy current).isSome → w.obeyed = ok)
    (h : ∀ w' ok' cur, (w'.obeyed && permits w'.asked (job.request cur)) = ok' →
      (ok' = true → (truthy cur).isSome) → Q (w', ok') cur) :
    wp (watch.prod allAllowed) (checkBreakerWhole job current) Q (w, ok) := by
  unfold checkBreakerWhole
  split
  · next hp =>
    apply h
    · simp [hasked, permits, hnone hp]
    · simp [hnone hp]
  · next p hp =>
    obtain ⟨rfl, -⟩ := truthy_eq_some hp
    have hcur : (truthy (some p)).isSome := by simp [hp]
    simp only [pickOther, pickProxy, wp_bind, wp_call]
    intro v
    split
    · next hv =>
      have hperm : permits (some (p, v)) (job.request (some p)) = true :=
        permits_of_answer hv rfl
      apply h
      · simp [watch, allAllowed, hperm, hsome hcur, hv]
      · exact fun _ => hcur
    · next hv =>
      simp only [wp_bind, wp_call]
      intro view
      apply h
      · simp [watch, Monitor.prod, allAllowed, permits_of_denied (by simpa using hv), hv]
      · exact fun _ => isSome_truthy_or hcur _

theorem wp_nextProxyWhole {left : Nat} {Q : Watch × Bool → Option Url → Prop}
    (h : ∀ ok' cur, (ok' = true → ok = true) →
      ((truthy current).isSome → ok' = ok ∧ (truthy cur).isSome) → Q (w, ok') cur) :
    wp (watch.prod allAllowed) (nextProxyWhole job current left) Q (w, ok) := by
  unfold nextProxyWhole
  split
  · simp only [pickOther, pickProxy, wp_bind, wp_call]
    intro view
    apply h
    · simp only [allAllowed, Bool.and_eq_true]
      exact And.left
    · intro hcur
      refine ⟨allAllowed_pick_of_nonempty ?_, isSome_truthy_or hcur _⟩
      cases current with
      | none => cases hcur
      | some p => exact ⟨p, by simp⟩
  · exact h _ _ id fun hcur => ⟨rfl, hcur⟩

theorem wp_requestWhole {Q : Watch × Bool → Except PyExc WholeResult → Prop}
    (h : ∀ r, Q (⟨none, w.obeyed && permits w.asked (job.request current)⟩, ok) r) :
    wp (watch.prod allAllowed) (requestWhole job current) Q (w, ok) := by
  simp only [requestWhole, wp_bind, wp_call]
  intro r
  split
  · exact h _
  · simp only [wp_bind, wp_call]
    exact fun _ => h _

theorem wp_wholeAttempts_succ {left : Nat} {lastExc : PyExc} (hasked : w.asked = none)
    (hnone : truthy current = none → ok = false)
    (hsome : (truthy current).isSome → w.obeyed = ok)
    (hrest : ∀ {w ok current lastExc}, w.asked = none → w.obeyed = ok →
      (ok = true → (truthy current).isSome) →
      wp (watch.prod allAllowed) (wholeAttempts job left current lastExc)
        (fun s _ => s.1.obeyed = s.2) (w, ok)) :
    wp (watch.prod allAllowed) (wholeAttempts job (left + 1) current lastExc)
      (fun s _ => s.1.obeyed = s.2) (w, ok) := by
  rw [wholeAttempts, wp_bind]
  apply wp_checkBreakerWhole hasked hnone hsome
  intro w' ok' cur heq hcur
  rw [wp_bind]
  apply wp_requestWhole
  intro r
  split
  · exact heq
  split
  · simp only [wp_bind, wp_call]
    intro _
    apply wp_nextProxyWhole
    intro ok'' cur' hle hsame
    cases hok : ok' with
    | true =>
      obtain ⟨rfl, hcur'⟩ := hsame (hcur hok)
      exact hrest rfl heq fun _ => hcur'
    | false =>
      have hfalse : ok'' = false := by
        by_contra hne
        have htrue : ok' = true := hle (by simpa using hne)
        simp [hok] at htrue
      subst hfalse
      exact hrest rfl (heq.trans hok) (by rintro ⟨⟩)
  · exact heq

theorem wp_wholeAttempts {left : Nat} {lastExc : PyExc} (hasked : w.asked = none)
    (h : w.obeyed = ok) (hcur : ok = true → (truthy current).isSome) :
    wp (watch.prod allAllowed) (wholeAttempts job left current lastExc)
      (fun s _ => s.1.obeyed = s.2) (w, ok) := by
  induction left generalizing w ok current lastExc with
  | zero => exact h
  | succ left ih =>
    refine wp_wholeAttempts_succ hasked ?_ (fun _ => h) fun hasked h hcur => ih hasked h hcur
    intro hnone
    cases ok with
    | true => simp [hnone] at hcur
    | false => rfl

theorem wp_fetchWhole (hretries : 0 < job.retries) :
    wp (watch.prod allAllowed) (fetchWhole job) (fun s _ => s.1.obeyed = s.2)
      (⟨none, true⟩, true) := by
  obtain ⟨left, hleft⟩ := Nat.exists_eq_succ_of_ne_zero (n := job.retries.toNat) (by omega)
  rw [fetchWhole, hleft, wp_bind, firstProxy]
  split
  · next p hp =>
    refine wp_wholeAttempts_succ rfl ?_ (fun _ => rfl) fun h h' h'' => wp_wholeAttempts h h' h''
    rw [← hp, truthy_truthy, hp]
    nofun
  · simp only [pickProxy, wp_bind, wp_call]
    intro view
    refine wp_wholeAttempts_succ rfl ?_ ?_ fun h h' h'' => wp_wholeAttempts h h' h''
    · intro hnone
      simp [allAllowed, hnone]
    · intro hsome
      simp [allAllowed, hsome, watch]

theorem wp_fetchWhole_of_nonpos (hretries : job.retries ≤ 0) :
    wp watch (fetchWhole job) (fun s _ => s.obeyed = true) ⟨none, true⟩ := by
  rw [fetchWhole, Int.toNat_of_nonpos hretries, wp_bind, firstProxy]
  split
  · rfl
  · simp only [pickProxy, wp_bind, wp_call]
    exact fun _ => rfl

end Whole

/-- A run of `fetch_chunk` only sends what the breaker allowed exactly when every attempt that
the breaker denied was cut short before its request.  A run of `fetch_whole` does exactly when
it found a proxy and no attempt was denied. -/
theorem obeysBreaker_iff (chunk : ChunkJob) (whole : WholeJob) (tr : FetchTrace) :
    (∀ r, Runs (fetchChunk chunk) tr r → (ObeysBreaker tr ↔ DenialsStop tr)) ∧
    (∀ r, Runs (fetchWhole whole) tr r →
      (ObeysBreaker tr ↔ (whole.retries ≤ 0 ∨ AllAllowed tr))) := by
  constructor
  · intro r hr
    have hwp := wp_iff.mp (wp_fetchChunk chunk) tr r hr
    rw [Monitor.after_prod] at hwp
    unfold ObeysBreaker DenialsStop
    rw [hwp]
  · intro r hr
    by_cases hretries : 0 < whole.retries
    · have hwp := wp_iff.mp (wp_fetchWhole hretries) tr r hr
      rw [Monitor.after_prod] at hwp
      unfold ObeysBreaker AllAllowed
      rw [hwp]
      simp [not_le.mpr hretries]
    · have hobeys := wp_iff.mp (wp_fetchWhole_of_nonpos (not_lt.mp hretries)) tr r hr
      exact iff_of_true hobeys (.inl (not_lt.mp hretries))

/-- Surroundings with an empty pool, in which every wait succeeds at once and every request is
answered with `body`. -/
def answering (breaker : CircuitBreaker) (body : Bytes) : (e : FetchEffect) → FetchAnswer e
  | .pickProxy .. => ⟨⟨[]⟩, .empty, breaker, ⟨0, 0⟩, .empty, 0, 0⟩
  | .allowRequest _ => ⟨breaker, 0, breaker, 30⟩
  | .acquireRetrySlot => .ok ()
  | .acquireLimiter _ => .ok ()
  | .http _ => .ok ⟨206, [], body, 12⟩
  | .recordSuccess .. => ()
  | .recordFailure _ => ()
  | .recordChunk _ => ()
  | .invalidateSession _ => ()

def soloJob : ChunkJob where
  url := "http://origin.example/file"
  start := 0
  stop := 1
  index := 0
  proxyUrl := "http://10.0.0.1:8080"
  chunkRetries := 2
  chunkProxy := true
  pool := none
  weighted := true
  retryBudget := true
  requestId := "-"

def soloWhole : WholeJob where
  url := "http://origin.example/file"
  reqHeaders := []
  body := none
  method := "GET"
  requestProxy := some "http://10.0.0.1:8080"
  retries := 3
  pool := none
  weighted := true

theorem obeysBreaker_of_closed :
    ObeysBreaker ((fetchChunk soloJob).exec (answering (.new 1 60 3600) [0, 1])).1 ∧
      ObeysBreaker ((fetchWhole soloWhole).exec (answering (.new 1 60 3600) [0, 1])).1 :=
  ⟨((obeysBreaker_iff soloJob soloWhole _).1 _ (runs_exec _ _)).mpr (by decide +kernel),
    ((obeysBreaker_iff soloJob soloWhole _).2 _ (runs_exec _ _)).mpr (.inr (by decide +kernel))⟩

/-- The breaker denies a banned proxy, no other is found, and the chunk is fetched through the
banned one all the same. -/
theorem banned_proxy_used :
    ¬ ((∀ job tr r, Runs (fetchChunk job) tr r → ObeysBreaker tr) ∧
      (∀ job tr r, Runs (fetchWhole job) tr r → ObeysBreaker tr)) := by
  intro h
  have hbanned := h.1 soloJob _ _ (runs_exec (answering
    ((CircuitBreaker.new 1 60 3600).openBan ⟨0, 0⟩ soloJob.proxyUrl "consecutive failures")
    [0, 1]) _)
  revert hbanned
  decide +kernel

end ProxySplit
