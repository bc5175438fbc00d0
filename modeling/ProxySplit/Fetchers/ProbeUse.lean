import ProxySplit.Fetchers.Chunk
import ProxySplit.Fetchers.BreakerUse

namespace ProxySplit

open Lib Prog

def probes : Monitor FetchEffect FetchAnswer (Finset Url)
  | s, .allowRequest p, v => if v.takesProbe p then insert p s else s
  | s, .recordSuccess (some p) _ _, _ => s.erase p
  | s, .recordFailure (some p), _ => s.erase p
  | s, _, _ => s

def ReportsProbes (tr : FetchTrace) : Prop := probes.after ∅ tr = ∅

instance (tr : FetchTrace) : Decidable (ReportsProbes tr) := inferInstanceAs (Decidable (_ = _))

structure Cut where
  probing : Bool
  cut : Bool

def Cut.off (c : Cut) : Cut := { c with cut := c.cut || c.probing }

def cuts : Monitor FetchEffect FetchAnswer Cut
  | s, .allowRequest p, v => { s with probing := v.takesProbe p }
  | s, .acquireRetrySlot, .error _ => s.off
  | s, .acquireLimiter _, .error _ => s.off
  | s, .http _, .error .cancelled => s.off
  | s, _, _ => s

/-- No attempt that is a probe is cut off. -/
def ProbesFinish (tr : FetchTrace) : Prop := (cuts.after ⟨false, false⟩ tr).cut = false

instance (tr : FetchTrace) : Decidable (ProbesFinish tr) := inferInstanceAs (Decidable (_ = _))

/-- What an attempt on `current` has taken, before it is cut off or reported. -/
structure Taken (current : Url) (s : Finset Url × Cut) : Prop where
  uncut : s.2.cut = false
  held : s.1 = if s.2.probing then {current} else ∅

def Balanced (s : Finset Url × Cut) : Prop := s.1 = ∅ ↔ s.2.cut = false

variable {s : Finset Url × Cut} {job : ChunkJob} {current : Url}

theorem Taken.cutOff (h : Taken current s) : Balanced (s.1, s.2.off) := by
  unfold Balanced
  rw [h.held]
  cases hp : s.2.probing <;> simp [Cut.off, h.uncut, hp]

theorem Taken.erase (h : Taken current s) : s.1.erase current = ∅ := by
  rw [h.held]
  split <;> simp

theorem wp_checkBreaker_probes {Q : Finset Url × Cut → Url → Prop} {c : Cut}
    (hc : c.cut = false) (h : ∀ s cur, Taken cur s → Q s cur) :
    wp (probes.prod cuts) (checkBreaker job current) Q (∅, c) := by
  simp only [checkBreaker, pickOther, pickProxy, wp_bind, wp_call]
  intro v
  have htaken : ∀ cur, (v.takesProbe current = true → cur = current) →
      Taken cur (probes.prod cuts (∅, c) (.allowRequest current) v) := by
    intro cur hcur
    refine ⟨hc, ?_⟩
    simp only [Monitor.prod, probes, cuts]
    split
    · next hv => simp [hcur hv]
    · rfl
  split
  · exact h _ _ (htaken _ fun _ => rfl)
  · next hv =>
    simp only [wp_bind, wp_call]
    intro view
    exact h _ _ (htaken _ fun hp => absurd (AllowView.answer_of_takesProbe hp) hv)

theorem wp_takeRetrySlot_probes {attempt : Nat} {Q : Finset Url × Cut → Except PyExc Unit → Prop}
    (hok : Q s (.ok ())) (herr : ∀ exc, Q (s.1, s.2.off) (.error exc)) :
    wp (probes.prod cuts) (takeRetrySlot job attempt) Q s := by
  unfold takeRetrySlot
  split
  · simp only [wp_bind, wp_call]
    intro r
    split
    · exact hok
    · exact herr _
    · exact herr _
    · exact herr _
  · exact hok

theorem wp_getRange_probes {Q : Finset Url × Cut → Except PyExc ChunkResult → Prop}
    (hok : ∀ res, Q (s.1.erase current, s.2) (.ok res))
    (hexc : ∀ exc, exc.isException = true → Q s (.error exc))
    (hcancel : Q (s.1, s.2.off) (.error .cancelled)) :
    wp (probes.prod cuts) (getRange job current) Q s := by
  simp only [getRange, wp_bind, wp_call]
  intro r
  split
  · next exc =>
    cases exc with
    | cancelled => exact hcancel
    | timeout => exact hexc _ rfl
    | clientConnector _ => exact hexc _ rfl
    | valueError _ => exact hexc _ rfl
    | runtimeError _ => exact hexc _ rfl
    | other _ => exact hexc _ rfl
  · split
    · simp only [wp_bind, wp_call]
      exact fun _ _ => hok _
    · exact hexc _ rfl

theorem wp_recordChunkFailure_probes {exc : PyExc} {Q : Finset Url × Cut → Unit → Prop}
    (h : Q (s.1.erase current, s.2) ()) :
    wp (probes.prod cuts) (recordChunkFailure current exc) Q s := by
  unfold recordChunkFailure
  split
  · simp only [wp_bind, wp_call]
    exact fun _ _ => h
  · exact fun _ => h

theorem wp_nextProxy_probes {left : Nat} {Q : Finset Url × Cut → Url → Prop} (h : ∀ p, Q s p) :
    wp (probes.prod cuts) (nextProxy job current left) Q s := by
  unfold nextProxy
  split
  · simp only [pickOther, pickProxy, wp_bind, wp_call]
    exact fun _ => h _
  · exact h _

/-- Every attempt starts without an outstanding probe: the one before it was reported. -/
theorem wp_fetchAttempts_probes {left attempt : Nat} {lastExc : PyExc} {c : Cut}
    (hc : c.cut = false) :
    wp (probes.prod cuts) (fetchAttempts job left attempt current lastExc)
      (fun s _ => Balanced s) (∅, c) := by
  induction left generalizing attempt current lastExc c with
  | zero => exact iff_of_true rfl hc
  | succ left ih =>
    rw [fetchAttempts, wp_bind]
    apply wp_checkBreaker_probes hc
    intro s cur htaken
    rw [wp_bind]
    apply wp_takeRetrySlot_probes
    · simp only [wp_bind, wp_call]
      intro limiter
      cases limiter with
      | error exc => exact htaken.cutOff
      | ok _ =>
        simp only [wp_bind]
        apply wp_getRange_probes
        · exact fun res => iff_of_true htaken.erase htaken.uncut
        · intro exc hexc
          simp only [hexc, if_true, wp_bind]
          apply wp_recordChunkFailure_probes
          apply wp_nextProxy_probes
          intro p
          have herase := htaken.erase
          simp only [Monitor.prod, probes, cuts] at herase ⊢
          rw [herase]
          exact ih htaken.uncut
        · exact htaken.cutOff
    · exact fun exc => htaken.cutOff

theorem wp_fetchChunk_probes (job : ChunkJob) :
    wp (probes.prod cuts) (fetchChunk job) (fun s _ => Balanced s) (∅, ⟨false, false⟩) :=
  wp_fetchAttempts_probes rfl

/-- A run of `fetch_chunk` reports every probe it takes exactly when none of its probing
attempts is cut off. -/
theorem reportsProbes_iff (job : ChunkJob) (tr : FetchTrace) (r : Except PyExc ChunkResult)
    (hr : Runs (fetchChunk job) tr r) : ReportsProbes tr ↔ ProbesFinish tr := by
  have hwp := wp_iff.mp (wp_fetchChunk_probes job) tr r hr
  rw [Monitor.after_prod] at hwp
  exact hwp

def expiredBreaker : CircuitBreaker :=
  (CircuitBreaker.new 1 60 3600).openBan ⟨-60, 0⟩ soloJob.proxyUrl "consecutive failures"

theorem reportsProbes_of_success :
    ReportsProbes ((fetchChunk soloJob).exec (answering expiredBreaker [0, 1])).1 :=
  (reportsProbes_iff soloJob _ _ (runs_exec _ _)).mpr (by decide +kernel)

/-- The chunk is cancelled while it waits for the rate limiter, after it became the probe. -/
theorem probe_leaked :
    ¬ ∀ job tr r, Runs (fetchChunk job) tr r → ReportsProbes tr := by
  intro h
  have hleak := h soloJob _ _ (runs_exec (fun e => match e with
    | .acquireLimiter _ => .error .cancelled
    | e => answering expiredBreaker [0, 1] e) _)
  revert hleak
  decide +kernel

end ProxySplit
