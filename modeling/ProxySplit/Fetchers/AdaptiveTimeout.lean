import ProxySplit.ScoreBounds

namespace ProxySplit

open Lib

variable {K : Type} [Field K] [LinearOrder K]

def minTimeoutFactor : ℚ := 3 / 5

def maxTimeoutFactor : ℚ := 5 / 2

/-- `factor` of `_adaptive_timeout` for a score. -/
def timeoutFactor (score : K) : K :=
  max ↑minTimeoutFactor (min ↑maxTimeoutFactor (↑(1 / 2 : ℚ) / max ↑(1 / 10 : ℚ) score))

def adaptiveTimeout (w : ℚ → K) (now : ℚ) (s : ProxyStats K) (proxyUrl : Url) (baseTimeout : K) : K :=
  baseTimeout * timeoutFactor (s.score w now proxyUrl).1

variable [IsStrictOrderedRing K] {x y : K}

theorem timeoutFactor_def (x : K) :
    timeoutFactor x = max (3 / 5) (min (5 / 2) (1 / 2 / max (1 / 10) x)) := by
  rw [timeoutFactor, minTimeoutFactor, maxTimeoutFactor]
  norm_num

theorem timeoutFactor_mem (x : K) : 3 / 5 ≤ timeoutFactor x ∧ timeoutFactor x ≤ 5 / 2 := by
  rw [timeoutFactor_def]
  refine ⟨le_max_left _ _, max_le ?_ (min_le_left _ _)⟩
  norm_num

theorem timeoutFactor_antitone (h : x ≤ y) : timeoutFactor y ≤ timeoutFactor x := by
  have hfloor : (0 : K) < max (1 / 10) x := lt_max_of_lt_left (by norm_num)
  rw [timeoutFactor_def, timeoutFactor_def]
  gcongr

theorem timeoutFactor_eq (hlower : 1 / 5 ≤ x) (hupper : x ≤ 5 / 6) : timeoutFactor x = 1 / 2 / x := by
  have hpos : 0 < x := lt_of_lt_of_le (by norm_num) hlower
  have hfloor : max (1 / 10) x = x := max_eq_right (le_trans (by norm_num) hlower)
  rw [timeoutFactor_def, hfloor, min_eq_right, max_eq_right]
  · rw [le_div_iff₀ hpos]
    linarith
  · rw [div_le_iff₀ hpos]
    linarith

theorem timeoutFactor_of_low (h : x ≤ 1 / 5) : timeoutFactor x = 5 / 2 := by
  refine le_antisymm (timeoutFactor_mem x).2 ?_
  have hfifth : timeoutFactor (1 / 5 : K) = 5 / 2 := by
    rw [timeoutFactor_eq le_rfl (by norm_num)]
    norm_num
  exact hfifth ▸ timeoutFactor_antitone h

theorem timeoutFactor_of_high (h : 5 / 6 ≤ x) : timeoutFactor x = 3 / 5 := by
  refine le_antisymm ?_ (timeoutFactor_mem x).1
  have hfive : timeoutFactor (5 / 6 : K) = 3 / 5 := by
    rw [timeoutFactor_eq (by norm_num) le_rfl]
    norm_num
  exact hfive ▸ timeoutFactor_antitone h

namespace ProxyStats

/-- The call does not speak for the url: it is no success of it and does not forget it. -/
def Call.Spares (url : Url) : Call → Prop
  | .recordSuccess _ u _ _ | .seedLatency _ u _ _ | .evict u => u ≠ url
  | .recordFailure .. | .resetConsecutiveFailures _ | .read .. => True

section Fresh

variable {w : ℚ → K} {s s' : ProxyStats K} {url u : Url} {now t : ℚ}

omit [IsStrictOrderedRing K] in
theorem freshScore_of_get? (h : s'.data.get? url = s.data.get? url) :
    s'.freshScore w t url = s.freshScore w t url := by
  rw [freshScore, freshScore, h]

theorem freshScore_fresh_le : (StatsEntry.fresh : StatsEntry K).freshScore w t ≤ 1 / 2 := by
  rw [StatsEntry.freshScore, StatsEntry.successRate]
  norm_num [StatsEntry.fresh]

theorem freshScore_update_le {f : StatsEntry K → StatsEntry K}
    (hf : ∀ e, (f e).freshScore w t = e.freshScore w t) :
    (s.update u f).freshScore w t url ≤ s.freshScore w t url := by
  by_cases hu : url = u
  · subst hu
    have hget : (s.update url f).data.get? url = some (f (s.entry url)) := by simp [update]
    rw [freshScore, hget, Option.elim_some, hf, freshScore, entry]
    cases s.data.get? url with
    | none => exact freshScore_fresh_le
    | some e => exact le_rfl
  · refine (freshScore_of_get? ?_).le
    simp [update, hu]

omit [IsStrictOrderedRing K] in
theorem freshScore_scoreAll : (s.scoreAll w now).freshScore w t url = s.freshScore w t url := by
  rw [freshScore, scoreAll, Dict.get?_mapValues, freshScore]
  cases s.data.get? url <;> rfl

theorem freshScore_read_le [FloorRing K] (r : Read) :
    (s.read w now r).freshScore w t url ≤ s.freshScore w t url := by
  cases r with
  | getConsecutiveFailures u => exact freshScore_update_le fun _ => rfl
  | score u =>
    rw [ProxyStats.read, ProxyStats.score]
    split
    · exact le_rfl
    · exact freshScore_update_le fun _ => rfl
  | successRate | throughput => exact le_rfl
  | perProxyChunkSize u =>
    have hscored : (s.scoreAll w now).freshScore w t url = s.freshScore w t url := freshScore_scoreAll
    rw [ProxyStats.read, ← hscored]
    exact freshScore_update_le fun _ => rfl
  | scoresSnapshot | snapshot | prometheusLines => exact freshScore_scoreAll.le

end Fresh

variable [FloorRing K] {W : DecayWeight K} {start clock clock' t t' : ℚ} {s s' : ProxyStats K} {url : Url}
  {c : Call}

theorem freshScore_call_le (hnonneg : All StatsEntry.Nonneg s) (hspares : c.Spares url)
    (h : call W.weight (s, clock) c = some (s', clock')) :
    clock ≤ clock' ∧ s'.freshScore W.weight t url ≤ s.freshScore W.weight t url := by
  cases c with
  | recordSuccess now u | seedLatency now u =>
    obtain ⟨hle, h⟩ := Option.ite_none_right_eq_some.mp h
    cases h
    refine ⟨hle, (freshScore_of_get? ?_).le⟩
    simp [recordSuccess, seedLatency, update, Ne.symm hspares]
  | recordFailure now u =>
    obtain ⟨hle, h⟩ := Option.ite_none_right_eq_some.mp h
    cases h
    refine ⟨hle, ?_⟩
    by_cases hu : url = u
    · subst hu
      exact freshScore_recordFailure (fun a => W.pos a) hnonneg
    · exact (freshScore_of_get? (get?_recordFailure_of_ne hu)).le
  | resetConsecutiveFailures u =>
    cases h
    exact ⟨le_rfl, freshScore_update_le fun _ => rfl⟩
  | evict u =>
    cases h
    refine ⟨le_rfl, (freshScore_of_get? ?_).le⟩
    simp [evict, Ne.symm hspares]
  | read now r =>
    obtain ⟨hle, h⟩ := Option.ite_none_right_eq_some.mp h
    cases h
    exact ⟨le_rfl, freshScore_read_le r⟩

theorem freshScore_run_le {calls : List Call}
    (hs : (machine W.weight start).Reach (fun _ c => c.NonnegLatency) (s, clock))
    (hcalls : ∀ c ∈ calls, c.NonnegLatency ∧ c.Spares url)
    (hrun : (machine W.weight start).run (s, clock) calls = some (s', clock')) :
    clock ≤ clock' ∧ s'.freshScore W.weight t url ≤ s.freshScore W.weight t url := by
  induction calls generalizing s clock with
  | nil =>
    cases hrun
    exact ⟨le_rfl, le_rfl⟩
  | cons c calls ih =>
    obtain ⟨⟨s₁, clock₁⟩, hstep, hrest⟩ := Option.bind_eq_some_iff.mp hrun
    obtain ⟨hlatency, hspares⟩ := hcalls c (.head _)
    obtain ⟨hclock, hscore⟩ := freshScore_call_le (t := t) (nonneg_of_reach hs) hspares hstep
    obtain ⟨hclock', hscore'⟩ := ih (.step hs hlatency hstep) (fun c hc => hcalls c (.tail _ hc)) hrest
    exact ⟨hclock.trans hclock', hscore'.trans hscore⟩

theorem freshScore_eq_of_reach (hs : (machine W.weight start).Reachable (s, clock)) (ht : clock ≤ t)
    (ht' : clock ≤ t') : s.freshScore W.weight t url = s.freshScore W.weight t' url := by
  rw [freshScore, freshScore]
  cases he : s.data.get? url with
  | none => rfl
  | some e => exact (sound_of_reachable hs url e he).freshScore_eq ht ht'

/-- In exact arithmetic the timeout of a chunk fetch is at least 0.6 and at most 2.5 times the configured one,
and just that one for an unknown proxy.  Failures of the proxy, whatever is said of the other proxies and
whatever is read in between never make it shorter. -/
theorem adaptiveTimeout_of_run {calls : List Call} {base : K} (hbase : 0 ≤ base)
    (hs : (machine W.weight start).Reach (fun _ c => c.NonnegLatency) (s, clock))
    (hcalls : ∀ c ∈ calls, c.NonnegLatency ∧ c.Spares url)
    (hrun : (machine W.weight start).run (s, clock) calls = some (s', clock'))
    (ht : clock ≤ t) (ht' : clock' ≤ t') :
    3 / 5 * base ≤ adaptiveTimeout W.weight t s url base ∧
      adaptiveTimeout W.weight t s url base ≤ adaptiveTimeout W.weight t' s' url base ∧
      adaptiveTimeout W.weight t' s' url base ≤ 5 / 2 * base ∧
      (s.data.get? url = none → adaptiveTimeout W.weight t s url base = base) ∧
      (5 / 6 ≤ (s.score W.weight t url).1 → adaptiveTimeout W.weight t s url base = 3 / 5 * base) ∧
      ((s.score W.weight t url).1 ≤ 1 / 5 → adaptiveTimeout W.weight t' s' url base = 5 / 2 * base) := by
  have hs' : (machine W.weight start).Reach (fun _ c => c.NonnegLatency) (s', clock') :=
    hs.run (fun c hc _ => (hcalls c hc).1) hrun
  have hscore : (s'.score W.weight t' url).1 ≤ (s.score W.weight t url).1 := by
    obtain ⟨hclock, hle⟩ := freshScore_run_le (t := t') hs hcalls hrun
    rw [score_of_sound (sound_of_reachable hs.reachable) ht,
      score_of_sound (sound_of_reachable hs'.reachable) ht',
      freshScore_eq_of_reach hs.reachable ht (hclock.trans ht')]
    exact hle
  refine ⟨?_, mul_le_mul_of_nonneg_left (timeoutFactor_antitone hscore) hbase, ?_, fun hnone => ?_,
    fun hhigh => ?_, fun hlow => ?_⟩
  · rw [mul_comm]
    exact mul_le_mul_of_nonneg_left (timeoutFactor_mem _).1 hbase
  · rw [mul_comm (5 / 2)]
    exact mul_le_mul_of_nonneg_left (timeoutFactor_mem _).2 hbase
  · rw [adaptiveTimeout, score, hnone, timeoutFactor_eq (by norm_num) (by norm_num)]
    norm_num
  · rw [adaptiveTimeout, timeoutFactor_of_high hhigh, mul_comm]
  · rw [adaptiveTimeout, timeoutFactor_of_low (hscore.trans hlow), mul_comm]

theorem more_time_after_failure : ∃ s, (machine halfLife.weight 0).Reach (fun _ c => c.NonnegLatency) (s, 0) ∧
    (s.entry "http://10.0.0.1:8080").latencyMs = [(0, 250)] ∧
      adaptiveTimeout halfLife.weight 1 s "http://10.0.0.1:8080" 30 ≤
        adaptiveTimeout halfLife.weight 1 (s.recordFailure 1 "http://10.0.0.1:8080").1
          "http://10.0.0.1:8080" 30 := by
  have hreach : (machine halfLife.weight 0).Reach (fun _ c => c.NonnegLatency)
      (empty.recordSuccess 0 "http://10.0.0.1:8080" 100 250, 0) :=
    reach_recordSuccess (by norm_num [Call.NonnegLatency])
  have hspares : ∀ c ∈ [Call.recordFailure 1 "http://10.0.0.1:8080"],
      c.NonnegLatency ∧ c.Spares "http://10.0.0.1:8080" := by
    simp [Call.NonnegLatency, Call.Spares]
  have hrun : (machine halfLife.weight 0).run (empty.recordSuccess 0 "http://10.0.0.1:8080" 100 250, 0)
      [.recordFailure 1 "http://10.0.0.1:8080"] =
        some (((empty.recordSuccess 0 "http://10.0.0.1:8080" 100 250).recordFailure 1
          "http://10.0.0.1:8080").1, 1) := by
    simp only [machine, Machine.run, call, zero_le_one, if_true, Option.bind_some]
  exact ⟨_, hreach, rfl,
    (adaptiveTimeout_of_run (by norm_num) hreach hspares hrun zero_le_one le_rfl).2.1⟩

end ProxyStats

end ProxySplit
