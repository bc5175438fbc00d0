import ProxySplit.CircuitBreaker

namespace ProxySplit

open Lib

/-- `STATS` and `BREAKER` side by side, as `session_pool` drives them. -/
structure ProxyHealth (K : Type) where
  stats : ProxyStats K
  breaker : CircuitBreaker
  clock : Clock
  deriving DecidableEq

namespace ProxyHealth

def recordFailure (h : ProxyHealth K) (url : Url) : ProxyHealth K :=
  let (stats, consec) := h.stats.recordFailure h.clock.time url
  { h with
    stats := stats
    breaker := h.breaker.recordFailure h.clock url consec CircuitBreaker.defaultReason }

def recordSuccess (h : ProxyHealth K) (url : Url) (nbytes : Nat) (latencyMs : ℚ) :
    ProxyHealth K :=
  let stats := h.stats.recordSuccess h.clock.time url nbytes latencyMs
  let (breaker, stats) := h.breaker.recordSuccess stats url
  { h with stats := stats, breaker := breaker }

def allowRequest (h : ProxyHealth K) (url : Url) : ProxyHealth K :=
  { h with breaker := (h.breaker.allowEnter h.clock.monotonic url).2 }

def release (h : ProxyHealth K) (url : Url) : ProxyHealth K :=
  let (breaker, stats) := h.breaker.release h.stats url
  { h with stats := stats, breaker := breaker }

def evict (h : ProxyHealth K) (url : Url) : ProxyHealth K :=
  { h with stats := h.stats.evict url }

def retestFailed (h : ProxyHealth K) (url : Url) : ProxyHealth K :=
  let consec := h.stats.consecutiveFailures url
  { h with
    stats := h.stats.readEntry url
    breaker := h.breaker.recordFailure h.clock url (max consec h.breaker.threshold) "retest failed" }

inductive Op
  | recordFailure (url : Url)
  | recordSuccess (url : Url) (nbytes : Nat) (latencyMs : ℚ)
  | allowRequest (url : Url)
  | release (url : Url)
  | evict (url : Url)
  | elapse (dt : ℚ)
  deriving DecidableEq

/-- Results come in for any url at any time, so also late ones of requests that were sent
before the url was banned. -/
def machine (K : Type) (threshold : Nat) (base max : ℚ) (start : Clock) :
    Machine (ProxyHealth K) Op where
  init := ⟨.empty, .new threshold base max, start⟩
  step := fun h op => match op with
    | .recordFailure url => some (h.recordFailure url)
    | .recordSuccess url n lat => some (h.recordSuccess url n lat)
    | .allowRequest url => some (h.allowRequest url)
    | .release url => some (h.release url)
    | .evict url => some (h.evict url)
    | .elapse dt =>
      if 0 ≤ dt then some { h with clock := ⟨h.clock.monotonic + dt, h.clock.time + dt⟩ }
      else none

/-- An outcome recorded for a half-open url settles it: a failure bans it again with one more
strike and wakes the waiters, a success closes it. -/
structure Settles (h : ProxyHealth K) (url : Url) : Prop where
  failure_opens : (h.recordFailure url).breaker.stateFor url = .opened
  failure_strikes : (h.recordFailure url).breaker.strike url = h.breaker.strike url + 1
  failure_wakes : ∃ ev, h.breaker.probeEvents.get? url = some ev ∧
    (h.recordFailure url).breaker.events[ev]? = some true
  success_closes : ∀ n lat, (h.recordSuccess url n lat).breaker.stateFor url = .closed
  success_clears : ∀ n lat, (h.recordSuccess url n lat).breaker.strike url = 0

theorem recordFailure_breaker (h : ProxyHealth K) (url : Url) :
    (h.recordFailure url).breaker =
      h.breaker.recordFailure h.clock url (h.stats.consecutiveFailures url + 1)
        CircuitBreaker.defaultReason := by
  rw [← ProxyStats.recordFailure_snd h.stats h.clock.time url]
  rfl

theorem recordSuccess_breaker (h : ProxyHealth K) (url : Url) (n : Nat) (lat : ℚ) :
    (h.recordSuccess url n lat).breaker =
      (h.breaker.recordSuccess (h.stats.recordSuccess h.clock.time url n lat) url).1 := rfl

theorem success_settles {h : ProxyHealth K} {url : Url}
    (hs : h.breaker.stateFor url = .halfOpen) (n : Nat) (lat : ℚ) :
    (h.recordSuccess url n lat).breaker.stateFor url = .closed ∧
      (h.recordSuccess url n lat).breaker.strike url = 0 := by
  rw [recordSuccess_breaker, CircuitBreaker.recordSuccess_of_halfOpen hs]
  simp [CircuitBreaker.stateFor, CircuitBreaker.strike]

theorem settles_of_threshold_le {h : ProxyHealth K} {url : Url} (hinv : h.breaker.ProbeInv)
    (hs : h.breaker.stateFor url = .halfOpen)
    (hc : h.breaker.threshold ≤ h.stats.consecutiveFailures url + 1) : h.Settles url := by
  have hfail : (h.recordFailure url).breaker =
      (h.breaker.openBan h.clock url CircuitBreaker.defaultReason).settle url := by
    rw [recordFailure_breaker]
    exact CircuitBreaker.recordFailure_of_not_opened hc (by simp [hs])
  obtain ⟨ev, hev⟩ := Option.isSome_iff_exists.mp ((hinv.registered url).mpr hs)
  constructor
  · rw [hfail]; simp [CircuitBreaker.stateFor]
  · rw [hfail]; simp [CircuitBreaker.strike]
  · refine ⟨ev, hev, ?_⟩
    rw [hfail]
    exact CircuitBreaker.events_settle hev (hinv.allocated url ev hev)
  · exact fun n lat => (success_settles hs n lat).1
  · exact fun n lat => (success_settles hs n lat).2

theorem stays_halfOpen_of_lt {h : ProxyHealth K} {url : Url}
    (hs : h.breaker.stateFor url = .halfOpen)
    (hc : h.stats.consecutiveFailures url + 1 < h.breaker.threshold) :
    (h.recordFailure url).breaker.stateFor url = .halfOpen := by
  rwa [recordFailure_breaker, CircuitBreaker.recordFailure_of_lt hc]

theorem settles_iff {h : ProxyHealth K} {url : Url} (hinv : h.breaker.ProbeInv)
    (hs : h.breaker.stateFor url = .halfOpen) :
    h.Settles url ↔ h.breaker.threshold ≤ h.stats.consecutiveFailures url + 1 := by
  constructor
  · intro hset
    by_contra hlt
    have hstay := stays_halfOpen_of_lt hs (not_le.mp hlt)
    rw [hset.failure_opens] at hstay
    cases hstay
  · exact settles_of_threshold_le hinv hs

section Runs

variable {threshold : Nat} {base max : ℚ} {start : Clock}

structure Inv (threshold : Nat) (h : ProxyHealth K) : Prop where
  threshold_eq : h.breaker.threshold = threshold
  probes : h.breaker.ProbeInv

theorem threshold_of_parameters {b b' : CircuitBreaker} (h : b'.parameters = b.parameters) :
    b'.threshold = b.threshold := congrArg Prod.fst h

theorem inv_of_reachable {h : ProxyHealth K}
    (hr : (machine K threshold base max start).Reachable h) : h.Inv threshold := by
  refine hr.invariant (I := Inv threshold) ⟨rfl, .new ..⟩ ?_
  rintro h op h' hI - hstep
  cases op with
  | recordFailure url =>
    cases hstep
    refine ⟨?_, ?_⟩
    · rw [recordFailure_breaker, ← hI.threshold_eq]
      exact threshold_of_parameters (CircuitBreaker.parameters_recordFailure ..)
    · rw [recordFailure_breaker]; exact hI.probes.recordFailure ..
  | recordSuccess url n lat =>
    cases hstep
    refine ⟨?_, hI.probes.recordSuccess ..⟩
    rw [← hI.threshold_eq]
    exact threshold_of_parameters (CircuitBreaker.parameters_recordSuccess ..)
  | allowRequest url =>
    cases hstep
    refine ⟨?_, hI.probes.allowEnter ..⟩
    rw [← hI.threshold_eq]
    exact threshold_of_parameters (CircuitBreaker.parameters_allowEnter ..)
  | release url =>
    cases hstep
    refine ⟨?_, hI.probes.release h.stats url⟩
    rw [← hI.threshold_eq]
    exact threshold_of_parameters (CircuitBreaker.parameters_release _ h.stats _)
  | evict url => cases hstep; exact ⟨hI.threshold_eq, hI.probes⟩
  | elapse dt =>
    simp only [machine] at hstep
    split at hstep
    · cases hstep; exact ⟨hI.threshold_eq, hI.probes⟩
    · cases hstep

/-- Steps that leave the failure count of a banned or probed url alone: no late success is
recorded while the url is OPEN, and its statistics are not dropped before it is CLOSED. -/
def KeepsCount (h : ProxyHealth K) : Op → Prop
  | .recordSuccess url _ _ => h.breaker.stateFor url ≠ .opened
  | .evict url => h.breaker.stateFor url = .closed
  | _ => True

def CountInv (threshold : Nat) (h : ProxyHealth K) : Prop :=
  h.breaker.threshold = threshold ∧
    ∀ url, h.breaker.stateFor url ≠ .closed → threshold ≤ h.stats.consecutiveFailures url

theorem CountInv.recordFailure {h : ProxyHealth K} (hI : h.CountInv threshold) (url : Url) :
    (h.recordFailure url).CountInv threshold := by
  refine ⟨?_, fun u hu => ?_⟩
  · rw [recordFailure_breaker, ← hI.1]
    exact threshold_of_parameters (CircuitBreaker.parameters_recordFailure ..)
  have hcount : (h.recordFailure url).stats.consecutiveFailures u =
      if u = url then h.stats.consecutiveFailures url + 1 else h.stats.consecutiveFailures u :=
    ProxyStats.consecutiveFailures_recordFailure ..
  rw [recordFailure_breaker] at hu
  rw [hcount]
  by_cases hlt : h.stats.consecutiveFailures url + 1 < h.breaker.threshold
  · rw [CircuitBreaker.recordFailure_of_lt hlt] at hu
    have := hI.2 u hu
    split
    · next he => rw [he] at this; omega
    · exact this
  · split
    · rw [← hI.1]; exact not_lt.mp hlt
    · next hne =>
      apply hI.2 u
      by_cases hopen : h.breaker.stateFor url = .opened
      · rwa [CircuitBreaker.recordFailure_of_opened hopen] at hu
      · rw [CircuitBreaker.recordFailure_of_not_opened (not_lt.mp hlt) hopen] at hu
        simpa [CircuitBreaker.stateFor, hne] using hu

theorem CountInv.recordSuccess {h : ProxyHealth K} (hI : h.CountInv threshold) {url : Url}
    (hok : h.breaker.stateFor url ≠ .opened) (n : Nat) (lat : ℚ) :
    (h.recordSuccess url n lat).CountInv threshold := by
  refine ⟨?_, fun u hu => ?_⟩
  · rw [← hI.1]
    exact threshold_of_parameters (CircuitBreaker.parameters_recordSuccess ..)
  by_cases hne : u = url
  · subst hne
    exfalso
    apply hu
    cases hs : h.breaker.stateFor u with
    | opened => exact absurd hs hok
    | halfOpen => exact (success_settles hs n lat).1
    | closed =>
      rw [recordSuccess_breaker, CircuitBreaker.recordSuccess_of_not_halfOpen (by simp [hs])]
      exact hs
  · have hstate : (h.recordSuccess url n lat).breaker.stateFor u = h.breaker.stateFor u := by
      rw [recordSuccess_breaker]
      by_cases hs : h.breaker.stateFor url = .halfOpen
      · rw [CircuitBreaker.recordSuccess_of_halfOpen hs]
        simp [CircuitBreaker.stateFor, hne]
      · rw [CircuitBreaker.recordSuccess_of_not_halfOpen hs]
    have hcount : (h.recordSuccess url n lat).stats.consecutiveFailures u =
        h.stats.consecutiveFailures u := by
      unfold ProxyHealth.recordSuccess CircuitBreaker.recordSuccess
      split <;> simp [hne]
    rw [hcount]
    exact hI.2 u (by rwa [hstate] at hu)

theorem CountInv.allowRequest {h : ProxyHealth K} (hI : h.CountInv threshold) (url : Url) :
    (h.allowRequest url).CountInv threshold := by
  refine ⟨?_, fun u hu => ?_⟩
  · rw [← hI.1]
    exact threshold_of_parameters (CircuitBreaker.parameters_allowEnter ..)
  apply hI.2 u
  rcases h.breaker.allowEnter_cases h.clock.monotonic url with hsame | ⟨hopen, -, hprobe⟩
  · simpa [ProxyHealth.allowRequest, hsame] using hu
  · by_cases hne : u = url
    · rw [hne, hopen]; simp
    · simpa [ProxyHealth.allowRequest, hprobe, CircuitBreaker.stateFor, hne] using hu

theorem CountInv.release {h : ProxyHealth K} (hI : h.CountInv threshold) (url : Url) :
    (h.release url).CountInv threshold := by
  refine ⟨?_, fun u hu => ?_⟩
  · rw [← hI.1]
    exact threshold_of_parameters (CircuitBreaker.parameters_release _ h.stats _)
  have hstate : (h.release url).breaker.stateFor u =
      if u = url then .closed else h.breaker.stateFor u := CircuitBreaker.stateFor_release _ h.stats _ _
  have hcount : (h.release url).stats.consecutiveFailures u =
      if u = url then 0 else h.stats.consecutiveFailures u :=
    ProxyStats.consecutiveFailures_reset ..
  rw [hstate] at hu
  rw [hcount]
  by_cases hne : u = url
  · simp [hne] at hu
  · rw [if_neg hne] at hu ⊢
    exact hI.2 u hu

theorem CountInv.evict {h : ProxyHealth K} (hI : h.CountInv threshold) {url : Url}
    (hok : h.breaker.stateFor url = .closed) : (h.evict url).CountInv threshold := by
  refine ⟨hI.1, fun u hu => ?_⟩
  have hne : u ≠ url := fun he => hu (he ▸ hok)
  have hcount : (h.evict url).stats.consecutiveFailures u = h.stats.consecutiveFailures u := by
    simp [ProxyHealth.evict, hne]
  rw [hcount]
  exact hI.2 u hu

theorem countInv_of_reach {h : ProxyHealth K}
    (hr : (machine K threshold base max start).Reach KeepsCount h) : h.CountInv threshold := by
  refine hr.invariant (I := CountInv threshold) ⟨rfl, fun url hu => absurd ?_ hu⟩ ?_
  · simp [machine, CircuitBreaker.new, CircuitBreaker.stateFor, CircuitBreaker.entry,
      BreakerEntry.fresh]
  intro h op h' hI hok hstep
  cases op with
  | recordFailure url => cases hstep; exact hI.recordFailure url
  | recordSuccess url n lat => cases hstep; exact hI.recordSuccess hok n lat
  | allowRequest url => cases hstep; exact hI.allowRequest url
  | release url => cases hstep; exact hI.release url
  | evict url => cases hstep; exact hI.evict hok
  | elapse dt =>
    simp only [machine] at hstep
    split at hstep
    · cases hstep; exact hI
    · cases hstep

/-- In every state a run reaches, a recorded outcome settles a half-open url exactly when its
failure count is at most one short of the threshold; and a run that leaves the counts of banned
and probed urls alone only reaches states where it is. -/
theorem halfOpen_settled_iff (K : Type) (threshold : Nat) (base max : ℚ) (start : Clock) :
    (∀ h : ProxyHealth K, (machine K threshold base max start).Reachable h →
      ∀ url, h.breaker.stateFor url = .halfOpen →
        (h.Settles url ↔ threshold ≤ h.stats.consecutiveFailures url + 1)) ∧
    (∀ h : ProxyHealth K, (machine K threshold base max start).Reach KeepsCount h →
      ∀ url, h.breaker.stateFor url = .halfOpen → h.Settles url) := by
  have hiff : ∀ h : ProxyHealth K, (machine K threshold base max start).Reachable h →
      ∀ url, h.breaker.stateFor url = .halfOpen →
        (h.Settles url ↔ threshold ≤ h.stats.consecutiveFailures url + 1) := by
    intro h hr url hs
    obtain ⟨hth, hprobes⟩ := inv_of_reachable hr
    rw [← hth]
    exact settles_iff hprobes hs
  refine ⟨hiff, fun h hr url hs => (hiff h hr.reachable url hs).mpr ?_⟩
  have := (countInv_of_reach hr).2 url (by simp [hs])
  omega

theorem halfOpen_settled_after_ban : ∃ h : ProxyHealth Unit,
    (machine Unit 1 60 3600 ⟨0, 0⟩).Reach KeepsCount h ∧
      h.breaker.stateFor "http://10.0.0.1:8080" = .halfOpen ∧
      h.Settles "http://10.0.0.1:8080" := by
  have hkeeps : ∀ op ∈ [Op.recordFailure "http://10.0.0.1:8080", .elapse 60,
      .allowRequest "http://10.0.0.1:8080"], ∀ h : ProxyHealth Unit, KeepsCount h op := by
    simp [KeepsCount]
  obtain ⟨h, hr, hs⟩ := Machine.exists_reach (M := machine Unit 1 60 3600 ⟨0, 0⟩)
    (P := fun h => h.breaker.stateFor "http://10.0.0.1:8080" = .halfOpen) _ hkeeps
    (by decide +kernel)
  exact ⟨h, hr, hs, (halfOpen_settled_iff Unit 1 60 3600 ⟨0, 0⟩).2 h hr _ hs⟩

/-- Two failures ban a proxy, the answer of a request sent before the ban comes in late and
clears the count, the ban runs out and a probe is sent: its failure is one short of the
threshold and the proxy stays HALF_OPEN. -/
theorem halfOpen_not_settled_after_late_success :
    ¬ ∀ (threshold : Nat) (base max : ℚ) (start : Clock) (h : ProxyHealth Unit), 1 ≤ threshold →
      (machine Unit threshold base max start).Reachable h →
        ∀ url, h.breaker.stateFor url = .halfOpen → h.Settles url := by
  intro hall
  obtain ⟨h, hr, hs, hstay⟩ := Machine.exists_reachable (M := machine Unit 2 60 3600 ⟨0, 0⟩)
    (P := fun h => h.breaker.stateFor "http://10.0.0.1:8080" = .halfOpen ∧
      (h.recordFailure "http://10.0.0.1:8080").breaker.stateFor "http://10.0.0.1:8080"
        = .halfOpen)
    [.recordFailure "http://10.0.0.1:8080", .recordFailure "http://10.0.0.1:8080",
      .recordSuccess "http://10.0.0.1:8080" 1024 250, .elapse 60,
      .allowRequest "http://10.0.0.1:8080"]
    (by decide +kernel)
  have hopen := (hall 2 60 3600 ⟨0, 0⟩ h (by decide) hr _ hs).failure_opens
  rw [hstay] at hopen
  cases hopen

end Runs

end ProxyHealth

end ProxySplit
