import ProxySplit.ProxyScore

namespace ProxySplit

open Lib

variable {K : Type}

namespace ProxyStats

def All (P : StatsEntry K → Prop) (s : ProxyStats K) : Prop := ∀ url e, s.data.get? url = some e → P e

namespace All

variable {P Q : StatsEntry K → Prop} {s : ProxyStats K} {url : Url}

theorem entry (h : All P s) (hfresh : P .fresh) : P (s.entry url) := by
  rw [ProxyStats.entry]
  cases he : s.data.get? url with
  | none => exact hfresh
  | some e => exact h url e he

theorem update {f : StatsEntry K → StatsEntry K} (h : All P s) (hfresh : P .fresh)
    (hf : ∀ e, P e → P (f e)) : All P (s.update url f) := by
  intro u e he
  rw [ProxyStats.update, Dict.get?_set] at he
  split at he
  · cases he
    exact hf _ (h.entry hfresh)
  · exact h u e he

theorem evict (h : All P s) : All P (s.evict url) := by
  intro u e he
  rw [ProxyStats.evict, Dict.get?_erase] at he
  split at he
  · cases he
  · exact h u e he

theorem mono (h : All P s) (hPQ : ∀ e, P e → Q e) : All Q s := fun u e he => hPQ e (h u e he)

end All

end ProxyStats

variable [Field K] [LinearOrder K]

section Percentile

variable {pairs : List (K × K)} {k : K}

omit [LinearOrder K] in
theorem totalWeight_scale : totalWeight (pairs.map fun a => (a.1, k * a.2)) = k * totalWeight pairs := by
  rw [totalWeight, List.map_map]
  exact List.sum_map_mul_left ..

theorem average_scale (hk : 0 < k) : average (pairs.map fun a => (a.1, k * a.2)) = average pairs := by
  have hsum : ((pairs.map fun a => (a.1, k * a.2)).map fun a => a.2 * a.1).sum =
      k * (pairs.map fun a => a.2 * a.1).sum := by
    rw [List.map_map, ← List.sum_map_mul_left]
    simp only [Function.comp_def, mul_assoc]
  rw [average, average, hsum, totalWeight_scale, mul_div_mul_left _ _ hk.ne']

variable [IsStrictOrderedRing K]

theorem totalWeight_pos (hne : pairs ≠ []) (hpos : ∀ a ∈ pairs, 0 < a.2) : 0 < totalWeight pairs := by
  refine List.sum_pos _ (fun w hw => ?_) (by simpa using hne)
  obtain ⟨a, ha, rfl⟩ := List.mem_map.mp hw
  exact hpos a ha

theorem isQuantile_p95 (hne : pairs ≠ []) (hpos : ∀ a ∈ pairs, 0 < a.2) :
    IsQuantile (95 / 100 * totalWeight pairs) pairs (p95 pairs) := by
  have htotal := totalWeight_pos hne hpos
  have hperm : (pairs.mergeSort fun a b => a.1 ≤ b.1).Perm pairs := List.mergeSort_perm ..
  have hsorted : (pairs.mergeSort fun a b => a.1 ≤ b.1).Pairwise fun a b => a.1 ≤ b.1 := by
    refine (List.pairwise_mergeSort ?_ ?_ pairs).imp of_decide_eq_true
    · exact fun a b c hab hbc => decide_eq_true ((of_decide_eq_true hab).trans (of_decide_eq_true hbc))
    · intro a b
      rw [Bool.or_eq_true, decide_eq_true_eq, decide_eq_true_eq]
      exact le_total a.1 b.1
  have hsum : ((pairs.mergeSort fun a b => a.1 ≤ b.1).map Prod.snd).sum = totalWeight pairs :=
    (hperm.map _).sum_eq
  intro x
  rw [p95, IsQuantile.of_scan hsorted, zero_add, massUpTo_perm hperm]
  · exact fun a ha => (hpos a (hperm.mem_iff.mp ha)).le
  · exact mul_pos (by norm_num) htotal
  · rw [hsum, zero_add]
    linarith

theorem p95_scale (hk : 0 < k) (hpos : ∀ a ∈ pairs, 0 < a.2) :
    p95 (pairs.map fun a => (a.1, k * a.2)) = p95 pairs := by
  by_cases hne : pairs = []
  · rw [hne]
    rfl
  · have hpos' : ∀ a ∈ pairs.map fun a => (a.1, k * a.2), 0 < a.2 := by
      intro a ha
      obtain ⟨b, hb, rfl⟩ := List.mem_map.mp ha
      exact mul_pos hk (hpos b hb)
    have hscaled := isQuantile_p95 (by simpa using hne) hpos'
    rw [totalWeight_scale, mul_left_comm] at hscaled
    exact hscaled.unique ((isQuantile_p95 hne hpos).scale hk)

theorem blend_scale (hk : 0 < k) (hpos : ∀ a ∈ pairs, 0 < a.2) :
    blend (pairs.map fun a => (a.1, k * a.2)) = blend pairs := by
  have hle : k * totalWeight pairs ≤ 0 ↔ totalWeight pairs ≤ 0 := by
    rw [← not_lt, ← not_lt, mul_pos_iff_of_pos_left hk]
  simp only [blend, totalWeight_scale, average_scale hk, p95_scale hk hpos, List.length_map, List.map_map,
    Function.comp_def, hle]

end Percentile

namespace StatsEntry

variable {W : DecayWeight K} {e : StatsEntry K} {clock now later : ℚ}

theorem weighted_pos : ∀ a ∈ e.weighted W.weight now, 0 < a.2 := by
  intro a ha
  obtain ⟨sample, -, rfl⟩ := List.mem_map.mp ha
  exact W.pos _ (le_max_left ..)

/-- All samples are older by the same time, and have lost the same share of their weight. -/
theorem weighted_later (hold : ∀ sample ∈ e.latencyMs, sample.1 ≤ now) (h : now ≤ later) :
    e.weighted W.weight later =
      (e.weighted W.weight now).map fun a => (a.1, W.weight (later - now) * a.2) := by
  rw [weighted, weighted, List.map_map]
  refine List.map_congr_left fun sample hsample => ?_
  have hage := hold sample hsample
  have hsplit : later - sample.1 = (later - now) + (now - sample.1) := by ring
  simp only [Function.comp_apply, decayWeight]
  rw [max_eq_right (by linarith), max_eq_right (by linarith), hsplit,
    W.add _ _ (by linarith) (by linarith)]

theorem eq_of_scale {F : List (K × K) → K}
    (hF : ∀ pairs k, 0 < k → (∀ a ∈ pairs, 0 < a.2) → F (pairs.map fun a => (a.1, k * a.2)) = F pairs)
    (hold : ∀ sample ∈ e.latencyMs, sample.1 ≤ clock) {t u : ℚ} (ht : clock ≤ t) (hu : clock ≤ u) :
    F (e.weighted W.weight t) = F (e.weighted W.weight u) := by
  have hlater : ∀ {t}, clock ≤ t → F (e.weighted W.weight t) = F (e.weighted W.weight clock) := by
    intro t ht
    rw [weighted_later hold ht]
    exact hF _ _ (W.pos _ (by linarith)) weighted_pos
  rw [hlater ht, hlater hu]

variable [IsStrictOrderedRing K]

/-- What is computed over the samples does not depend on when that is. -/
structure Timeless (W : DecayWeight K) (clock : ℚ) (e : StatsEntry K) : Prop where
  average : ∀ t u, clock ≤ t → clock ≤ u →
    average (e.weighted W.weight t) = average (e.weighted W.weight u)
  p95 : ∀ t u, clock ≤ t → clock ≤ u → p95 (e.weighted W.weight t) = p95 (e.weighted W.weight u)
  blend : ∀ t u, clock ≤ t → clock ≤ u → blend (e.weighted W.weight t) = blend (e.weighted W.weight u)

theorem timeless (hold : ∀ sample ∈ e.latencyMs, sample.1 ≤ clock) : Timeless W clock e where
  average _ _ := eq_of_scale (fun _ _ hk _ => average_scale hk) hold
  p95 _ _ := eq_of_scale (fun _ _ hk hpos => p95_scale hk hpos) hold
  blend _ _ := eq_of_scale (fun _ _ hk hpos => blend_scale hk hpos) hold

end StatsEntry

namespace ProxyStats

inductive Call
  | recordSuccess (now : ℚ) (url : Url) (nbytes : Nat) (latencyMs : ℚ)
  | recordFailure (now : ℚ) (url : Url)
  | seedLatency (now : ℚ) (url : Url) (latencyMs : ℚ) (nbytes : Nat)
  | resetConsecutiveFailures (url : Url)
  | evict (url : Url)
  | read (now : ℚ) (r : Read)

def call [FloorRing K] (w : ℚ → K) (p : ProxyStats K × ℚ) : Call → Option (ProxyStats K × ℚ)
  | .recordSuccess now url nbytes latencyMs =>
    if p.2 ≤ now then some (p.1.recordSuccess now url nbytes latencyMs, now) else none
  | .recordFailure now url => if p.2 ≤ now then some ((p.1.recordFailure now url).1, now) else none
  | .seedLatency now url latencyMs nbytes =>
    if p.2 ≤ now then some (p.1.seedLatency now url latencyMs nbytes, now) else none
  | .resetConsecutiveFailures url => some (p.1.resetConsecutiveFailures url, p.2)
  | .evict url => some (p.1.evict url, p.2)
  | .read now r => if p.2 ≤ now then some (p.1.read w now r, p.2) else none

def machine [FloorRing K] (w : ℚ → K) (start : ℚ) : Machine (ProxyStats K × ℚ) Call :=
  ⟨(empty, start), call w⟩

theorem All.read [FloorRing K] {P : StatsEntry K → Prop} {s : ProxyStats K} {w : ℚ → K} {now : ℚ} {r : Read}
    (h : All P s) (hfresh : P .fresh) (hscored : ∀ e, P e → P (e.scored w now)) :
    All P (s.read w now r) := by
  have hall : All P (s.scoreAll w now) := by
    intro u e he
    rw [scoreAll, Dict.get?_mapValues, Option.map_eq_some_iff] at he
    obtain ⟨e, he, rfl⟩ := he
    exact hscored e (h u e he)
  cases r with
  | getConsecutiveFailures url => exact h.update hfresh fun _ he => he
  | score url =>
    rw [ProxyStats.read, ProxyStats.score]
    split
    · exact h
    · exact h.update hfresh hscored
  | successRate | throughput => exact h
  | perProxyChunkSize url => exact hall.update hfresh hscored
  | scoresSnapshot | snapshot | prometheusLines => exact hall

/-- No sample is from after the last write, and the memo is what is computed at any time since. -/
structure Sound (W : DecayWeight K) (clock : ℚ) (e : StatsEntry K) : Prop where
  old : ∀ sample ∈ e.latencyMs, sample.1 ≤ clock
  memo : ∀ c, e.scoreCache = some c → ∀ t, clock ≤ t → c = e.freshScore W.weight t

namespace Sound

variable {W : DecayWeight K} {clock now : ℚ} {e e' : StatsEntry K} {latencyMs : ℚ}

theorem fresh : Sound W clock .fresh := by
  constructor
  case old =>
    intro sample hsample
    cases hsample
  case memo =>
    intro c hc
    cases hc

theorem later (h : Sound W clock e) (hle : clock ≤ now) : Sound W now e :=
  ⟨fun sample hsample => (h.old sample hsample).trans hle, fun c hc t ht => h.memo c hc t (hle.trans ht)⟩

theorem score_eq (h : Sound W clock e) (hle : clock ≤ now) :
    e.score W.weight now = e.freshScore W.weight now := by
  rw [StatsEntry.score]
  cases hc : e.scoreCache with
  | none => rfl
  | some c => exact h.memo c hc now hle

theorem sampled (h : Sound W clock e) (hle : clock ≤ now)
    (hlat : e'.latencyMs = appendMax 100 e.latencyMs (now, latencyMs)) (hcache : e'.scoreCache = none) :
    Sound W now e' where
  old sample hsample := by
    rw [hlat] at hsample
    rcases mem_appendMax hsample with hold | rfl
    · exact (h.old sample hold).trans hle
    · exact le_rfl
  memo c hc := by
    rw [hcache] at hc
    cases hc

variable [IsStrictOrderedRing K]

theorem freshScore_eq (h : Sound W clock e) {t u : ℚ} (ht : clock ≤ t) (hu : clock ≤ u) :
    e.freshScore W.weight t = e.freshScore W.weight u := by
  rw [StatsEntry.freshScore, StatsEntry.freshScore, (StatsEntry.timeless h.old).blend t u ht hu]

theorem scored (h : Sound W clock e) (hle : clock ≤ now) : Sound W clock (e.scored W.weight now) where
  old := h.old
  memo c hc t ht := by
    cases hc
    rw [h.score_eq hle]
    exact h.freshScore_eq hle ht

end Sound

section Runs

variable [IsStrictOrderedRing K] [FloorRing K] {W : DecayWeight K} {start clock now : ℚ} {s : ProxyStats K}
  {url : Url}

theorem sound_of_reachable (h : (machine W.weight start).Reachable (s, clock)) : All (Sound W clock) s := by
  refine h.invariant (I := fun p => All (Sound W p.2) p.1) ?_ ?_
  · intro url e he
    cases he
  · rintro ⟨s, clock⟩ call ⟨s', clock'⟩ hI - hstep
    dsimp only at hI ⊢
    cases call with
    | recordSuccess now | seedLatency now =>
      obtain ⟨hle, hstep⟩ := Option.ite_none_right_eq_some.mp hstep
      cases hstep
      refine (hI.mono fun e he => he.later hle).update .fresh fun e he => ?_
      exact he.sampled le_rfl rfl rfl
    | recordFailure now url =>
      obtain ⟨hle, hstep⟩ := Option.ite_none_right_eq_some.mp hstep
      cases hstep
      refine (hI.mono fun e he => he.later hle).update .fresh fun e he => ⟨he.old, fun c hc => ?_⟩
      cases hc
    | resetConsecutiveFailures url =>
      cases hstep
      exact hI.update .fresh fun e he => ⟨he.old, he.memo⟩
    | evict url =>
      cases hstep
      exact hI.evict
    | read now r =>
      obtain ⟨hle, hstep⟩ := Option.ite_none_right_eq_some.mp hstep
      cases hstep
      exact hI.read .fresh fun e he => he.scored hle

omit [IsStrictOrderedRing K] [FloorRing K] in
theorem score_of_sound (h : All (Sound W clock) s) (hnow : clock ≤ now) :
    (s.score W.weight now url).1 = s.freshScore W.weight now url := by
  rw [score, freshScore]
  cases he : s.data.get? url with
  | none => rfl
  | some e => exact (h url e he).score_eq hnow

/-- The memoised score is the one that would be computed now. -/
theorem score_eq_freshScore (h : (machine W.weight start).Reachable (s, clock)) (hnow : clock ≤ now) :
    (s.score W.weight now url).1 = s.freshScore W.weight now url ∧
      ∀ e, s.data.get? url = some e → StatsEntry.Timeless W clock e := by
  have hsound := sound_of_reachable h
  exact ⟨score_of_sound hsound hnow, fun e he => StatsEntry.timeless (hsound url e he).old⟩

omit [IsStrictOrderedRing K] in
theorem reach_recordSuccess {ok : ProxyStats K × ℚ → Call → Prop} {nbytes : Nat} {latencyMs : ℚ}
    (hok : ok (empty, start) (.recordSuccess start url nbytes latencyMs)) :
    (machine W.weight start).Reach ok (empty.recordSuccess start url nbytes latencyMs, start) := by
  refine .step .init hok ?_
  simp only [machine, call, le_refl, if_true]

theorem score_eq_freshScore_of_success : ∃ s, (machine halfLife.weight 0).Reachable (s, 0) ∧
    (s.entry "http://10.0.0.1:8080").scoreCache.isSome ∧
      (s.score halfLife.weight 300 "http://10.0.0.1:8080").1 =
        s.freshScore halfLife.weight 300 "http://10.0.0.1:8080" := by
  have hwritten : (machine halfLife.weight 0).Reachable
      (empty.recordSuccess 0 "http://10.0.0.1:8080" 100 250, 0) := reach_recordSuccess trivial
  have hread : (machine halfLife.weight 0).Reachable
      ((empty.recordSuccess 0 "http://10.0.0.1:8080" 100 250).read halfLife.weight 1
        (.score "http://10.0.0.1:8080"), 0) := by
    refine .step (l := .read 1 (.score "http://10.0.0.1:8080")) hwritten trivial ?_
    simp only [machine, call, zero_le_one, if_true]
  exact ⟨_, hread, rfl, (score_eq_freshScore hread (by norm_num)).1⟩

end Runs

end ProxyStats

end ProxySplit
