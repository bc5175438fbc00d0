import ProxySplit.ScoreMemo

namespace ProxySplit

open Lib

variable {K : Type}

namespace StatsEntry

def Nonneg (e : StatsEntry K) : Prop := ∀ sample ∈ e.latencyMs, 0 ≤ sample.2

theorem Nonneg.sampled {e e' : StatsEntry K} {now latencyMs : ℚ} (h : e.Nonneg) (hnonneg : 0 ≤ latencyMs)
    (hlat : e'.latencyMs = appendMax 100 e.latencyMs (now, latencyMs)) : e'.Nonneg := by
  intro sample hsample
  rw [hlat] at hsample
  rcases mem_appendMax hsample with hold | rfl
  · exact h sample hold
  · exact hnonneg

end StatsEntry

variable [Field K] [LinearOrder K]

section Blend

variable {pairs pre post : List (K × K)} {value value' weight : K}

omit [LinearOrder K] in
theorem totalWeight_raise :
    totalWeight (pre ++ (value', weight) :: post) = totalWeight (pre ++ (value, weight) :: post) := by
  simp [totalWeight]

def Proper (pairs : List (K × K)) : Prop := ∀ a ∈ pairs, 0 ≤ a.1 ∧ 0 < a.2

theorem Proper.raise (hle : value ≤ value') (h : Proper (pre ++ (value, weight) :: post)) :
    Proper (pre ++ (value', weight) :: post) := by
  intro a ha
  have hold := h (value, weight) (by simp)
  rcases List.mem_append.mp ha with ha | ha
  · exact h a (List.mem_append_left _ ha)
  · rcases List.mem_cons.mp ha with rfl | ha
    · exact ⟨hold.1.trans hle, hold.2⟩
    · exact h a (List.mem_append_right _ (.tail _ ha))

variable [IsStrictOrderedRing K]

theorem average_nonneg (h : Proper pairs) : 0 ≤ average pairs := by
  refine div_nonneg (List.sum_nonneg fun x hx => ?_) (List.sum_nonneg fun x hx => ?_)
  · obtain ⟨a, ha, rfl⟩ := List.mem_map.mp hx
    exact mul_nonneg (h a ha).2.le (h a ha).1
  · obtain ⟨a, ha, rfl⟩ := List.mem_map.mp hx
    exact (h a ha).2.le

theorem p95_nonneg (hne : pairs ≠ []) (h : Proper pairs) : 0 ≤ p95 pairs := by
  have htotal := totalWeight_pos hne fun a ha => (h a ha).2
  refine (isQuantile_p95 hne fun a ha => (h a ha).2).lower_bound ?_ fun a ha => (h a ha).1
  exact mul_pos (by norm_num) htotal

theorem blend_of_proper (hne : pairs ≠ []) (h : Proper pairs) : blend pairs =
    if 5 ≤ pairs.length then 6 / 10 * average pairs + 4 / 10 * p95 pairs else average pairs := by
  rw [blend, if_neg (not_le.mpr (totalWeight_pos hne fun a ha => (h a ha).2))]

theorem blend_nonneg (hne : pairs ≠ []) (h : Proper pairs) : 0 ≤ blend pairs := by
  have havg := average_nonneg h
  have hp95 := p95_nonneg hne h
  rw [blend_of_proper hne h]
  split
  · linarith
  · exact havg

theorem average_raise (hle : value ≤ value') (h : Proper (pre ++ (value, weight) :: post)) :
    average (pre ++ (value, weight) :: post) ≤ average (pre ++ (value', weight) :: post) := by
  have hweight : 0 < weight := (h (value, weight) (by simp)).2
  have htotal : 0 < totalWeight (pre ++ (value, weight) :: post) :=
    totalWeight_pos (by simp) fun a ha => (h a ha).2
  have hsame : totalWeight (pre ++ (value', weight) :: post) =
      totalWeight (pre ++ (value, weight) :: post) := totalWeight_raise
  rw [average, average, hsame]
  refine div_le_div_of_nonneg_right ?_ htotal.le
  simp only [List.map_append, List.map_cons, List.sum_append, List.sum_cons]
  have hmul := mul_le_mul_of_nonneg_left hle hweight.le
  linarith

theorem p95_raise (hle : value ≤ value') (h : Proper (pre ++ (value, weight) :: post)) :
    p95 (pre ++ (value, weight) :: post) ≤ p95 (pre ++ (value', weight) :: post) := by
  have hsame : totalWeight (pre ++ (value', weight) :: post) =
      totalWeight (pre ++ (value, weight) :: post) := totalWeight_raise
  have hraised := isQuantile_p95 (by simp) fun a ha => (h.raise hle a ha).2
  rw [hsame] at hraised
  refine (isQuantile_p95 (by simp) fun a ha => (h a ha).2).le_of_massUpTo_le hraised fun x => ?_
  exact massUpTo_raise hle (h (value, weight) (by simp)).2.le

theorem blend_raise (hle : value ≤ value') (h : Proper (pre ++ (value, weight) :: post)) :
    blend (pre ++ (value, weight) :: post) ≤ blend (pre ++ (value', weight) :: post) := by
  have havg := average_raise hle h
  have hp95 := p95_raise hle h
  rw [blend_of_proper (by simp) h, blend_of_proper (by simp) (h.raise hle)]
  simp only [List.length_append, List.length_cons]
  split
  · linarith
  · exact havg

end Blend

namespace StatsEntry

variable [IsStrictOrderedRing K] {w : ℚ → K} {now : ℚ} {e e' : StatsEntry K}

theorem successRate_nonneg : 0 ≤ e.successRate := by
  rw [successRate]
  split
  · norm_num
  · positivity

theorem successRate_le_one : e.successRate ≤ 1 := by
  rw [successRate]
  split
  · norm_num
  · refine div_le_one_of_le₀ ?_ (Nat.cast_nonneg _)
    exact_mod_cast Nat.le_add_right ..

theorem successRate_failure (hsuccess : e'.success = e.success) (hfailure : e'.failure = e.failure + 1) :
    e'.successRate ≤ e.successRate := by
  rw [successRate, successRate, hsuccess, hfailure, if_neg (by omega)]
  split
  · next hnone =>
    rw [(Nat.add_eq_zero_iff.mp hnone).1, Nat.cast_zero, zero_div]
    norm_num
  · next hsome =>
    have hpos : (0 : K) < (e.success + e.failure : Nat) := Nat.cast_pos.mpr (Nat.pos_of_ne_zero hsome)
    refine div_le_div_of_nonneg_left (Nat.cast_nonneg _) hpos ?_
    exact_mod_cast (Nat.le_succ _ : e.success + e.failure ≤ e.success + (e.failure + 1))

variable (now) in
theorem proper_weighted (hw : ∀ a, 0 ≤ a → 0 < w a) (h : e.Nonneg) : Proper (e.weighted w now) := by
  intro a ha
  obtain ⟨sample, hsample, rfl⟩ := List.mem_map.mp ha
  exact ⟨Rat.cast_nonneg.mpr (h sample hsample), hw _ (le_max_left ..)⟩

variable (now) in
theorem one_le_divisor (hw : ∀ a, 0 ≤ a → 0 < w a) (h : e.Nonneg) (hne : e.latencyMs ≠ []) :
    1 ≤ 1 + blend (e.weighted w now) / 1000 := by
  have hblend := blend_nonneg (by simpa [weighted] using hne) (proper_weighted now hw h)
  have hquotient : 0 ≤ blend (e.weighted w now) / 1000 := div_nonneg hblend (by norm_num)
  linarith

variable (now) in
theorem freshScore_bounds (hw : ∀ a, 0 ≤ a → 0 < w a) (h : e.Nonneg) :
    0 ≤ e.freshScore w now ∧ e.freshScore w now ≤ e.successRate := by
  have hsr := successRate_nonneg (e := e)
  rw [freshScore]
  split
  · exact ⟨by linarith, by linarith⟩
  · next hne =>
    have hone := one_le_divisor now hw h hne
    exact ⟨div_nonneg hsr (by linarith), div_le_self hsr hone⟩

theorem freshScore_raise (hw : ∀ a, 0 ≤ a → 0 < w a) (h : e.Nonneg) {pre post : List (ℚ × ℚ)}
    {ts lat lat' : ℚ} (hlat : e.latencyMs = pre ++ (ts, lat) :: post) (hle : lat ≤ lat') :
    freshScore w now { e with latencyMs := pre ++ (ts, lat') :: post } ≤ e.freshScore w now := by
  have hproper := proper_weighted now hw h
  have hone := one_le_divisor now hw h (by simp [hlat])
  rw [freshScore, if_neg (by simp), freshScore, if_neg (by simp [hlat])]
  refine div_le_div_of_nonneg_left (successRate_nonneg (e := e)) (by linarith) ?_
  have hraise : blend (e.weighted w now) ≤
      blend (weighted w now { e with latencyMs := pre ++ (ts, lat') :: post }) := by
    rw [weighted, hlat, List.map_append, List.map_cons] at hproper ⊢
    rw [weighted, List.map_append, List.map_cons]
    exact blend_raise (Rat.cast_le.mpr hle) hproper
  have hquotient := div_le_div_of_nonneg_right hraise (by norm_num : (0 : K) ≤ 1000)
  linarith

variable (now) in
theorem freshScore_failure (hw : ∀ a, 0 ≤ a → 0 < w a) (h : e.Nonneg)
    (hlat : e'.latencyMs = e.latencyMs) (hsuccess : e'.success = e.success)
    (hfailure : e'.failure = e.failure + 1) : e'.freshScore w now ≤ e.freshScore w now := by
  have hsr := successRate_failure hsuccess hfailure
  have hweighted : e'.weighted w now = e.weighted w now := by rw [weighted, weighted, hlat]
  rw [freshScore, freshScore, hlat, hweighted]
  split
  · linarith
  · next hne =>
    have hone := one_le_divisor now hw h hne
    exact div_le_div_of_nonneg_right hsr (by linarith)

end StatsEntry

namespace ProxyStats

/-- No call records a negative latency. -/
def Call.NonnegLatency : Call → Prop
  | .recordSuccess _ _ _ latencyMs | .seedLatency _ _ latencyMs _ => 0 ≤ latencyMs
  | .recordFailure .. | .resetConsecutiveFailures _ | .evict _ | .read .. => True

variable [FloorRing K] {W : DecayWeight K} {start clock now t : ℚ} {s : ProxyStats K} {url u : Url}

theorem nonneg_of_reach (h : (machine W.weight start).Reach (fun _ c => c.NonnegLatency) (s, clock)) :
    All StatsEntry.Nonneg s := by
  have hfresh : (StatsEntry.fresh : StatsEntry K).Nonneg := fun _ h => by cases h
  refine h.invariant (I := fun p => All StatsEntry.Nonneg p.1) ?_ ?_
  · intro url e he
    cases he
  · rintro ⟨s, clock⟩ call ⟨s', clock'⟩ hI hok hstep
    dsimp only at hI ⊢
    cases call with
    | recordSuccess now | seedLatency now =>
      obtain ⟨-, hstep⟩ := Option.ite_none_right_eq_some.mp hstep
      cases hstep
      exact hI.update hfresh fun e he => he.sampled hok rfl
    | recordFailure now url =>
      obtain ⟨-, hstep⟩ := Option.ite_none_right_eq_some.mp hstep
      cases hstep
      exact hI.update hfresh fun e he => he
    | resetConsecutiveFailures url =>
      cases hstep
      exact hI.update hfresh fun e he => he
    | evict url =>
      cases hstep
      exact hI.evict
    | read now r =>
      obtain ⟨-, hstep⟩ := Option.ite_none_right_eq_some.mp hstep
      cases hstep
      exact hI.read hfresh fun e he => he

variable [IsStrictOrderedRing K]

theorem score_bounds (h : (machine W.weight start).Reach (fun _ c => c.NonnegLatency) (s, clock))
    (ht : clock ≤ t) : 0 ≤ (s.score W.weight t url).1 ∧
      (s.score W.weight t url).1 ≤ s.successRate url ∧ s.successRate url ≤ 1 := by
  have hsound := sound_of_reachable h.reachable
  have hnonneg := nonneg_of_reach h
  rw [score, successRate]
  cases he : s.data.get? url with
  | none => norm_num
  | some e =>
    dsimp only
    rw [(hsound url e he).score_eq ht]
    obtain ⟨hlower, hupper⟩ := StatsEntry.freshScore_bounds t (fun a => W.pos a) (hnonneg url e he)
    exact ⟨hlower, hupper, StatsEntry.successRate_le_one⟩

omit [FloorRing K] in
theorem freshScore_recordFailure {w : ℚ → K} (hw : ∀ a, 0 ≤ a → 0 < w a) (h : All StatsEntry.Nonneg s) :
    (s.recordFailure now url).1.freshScore w t url ≤ s.freshScore w t url := by
  have hentry : (s.entry url).Nonneg := h.entry fun _ h => by cases h
  have hget : (s.recordFailure now url).1.data.get? url = some ((s.recordFailure now url).1.entry url) := by
    simp [recordFailure, update, entry]
  have hbefore : (s.entry url).freshScore w t ≤ s.freshScore w t url := by
    rw [freshScore, entry]
    cases he : s.data.get? url with
    | none =>
      rw [Option.getD_none, StatsEntry.freshScore, StatsEntry.successRate]
      norm_num [StatsEntry.fresh]
    | some e => exact le_rfl
  rw [freshScore, hget]
  refine (StatsEntry.freshScore_failure t hw hentry ?_ ?_ ?_).trans hbefore
  · simp [recordFailure, update, entry]
  · simp [recordFailure, update, entry]
  · simp [recordFailure, update, entry]

omit [Field K] [LinearOrder K] [FloorRing K] [IsStrictOrderedRing K] in
theorem get?_recordFailure_of_ne (hne : u ≠ url) :
    (s.recordFailure now url).1.data.get? u = s.data.get? u := by
  simp [recordFailure, update, hne]

theorem score_recordFailure (h : (machine W.weight start).Reach (fun _ c => c.NonnegLatency) (s, clock))
    (ht : clock ≤ t) :
    ((s.recordFailure now url).1.score W.weight t url).1 ≤ (s.score W.weight t url).1 := by
  have hcleared : ((s.recordFailure now url).1.score W.weight t url).1 =
      (s.recordFailure now url).1.freshScore W.weight t url := by
    rw [score, freshScore]
    simp [recordFailure, update, StatsEntry.score]
  rw [hcleared, score_of_sound (sound_of_reachable h.reachable) ht]
  exact freshScore_recordFailure (fun a => W.pos a) (nonneg_of_reach h)

/-- The score is between zero and the success rate, no sample that gets slower raises it, nor does a
failure. -/
theorem score_bounded_monotone (h : (machine W.weight start).Reach (fun _ c => c.NonnegLatency) (s, clock))
    (ht : clock ≤ t) :
    (∀ (w : ℚ → K) (e : StatsEntry K), (∀ a, 0 ≤ a → 0 < w a) → e.Nonneg →
      0 ≤ e.freshScore w t ∧ e.freshScore w t ≤ e.successRate ∧ e.successRate ≤ 1 ∧
        ∀ pre ts lat post lat', e.latencyMs = pre ++ (ts, lat) :: post → lat ≤ lat' →
          StatsEntry.freshScore w t { e with latencyMs := pre ++ (ts, lat') :: post } ≤ e.freshScore w t) ∧
    (∀ (w : ℚ → K) (s : ProxyStats K), (∀ a, 0 ≤ a → 0 < w a) → All StatsEntry.Nonneg s →
      (s.recordFailure now url).1.freshScore w t url ≤ s.freshScore w t url ∧
        ∀ u, u ≠ url → (s.recordFailure now url).1.freshScore w t u = s.freshScore w t u) ∧
    (0 ≤ (s.score W.weight t url).1 ∧
      (s.score W.weight t url).1 ≤ s.successRate url ∧ s.successRate url ≤ 1) ∧
    ((s.recordFailure now url).1.score W.weight t url).1 ≤ (s.score W.weight t url).1 ∧
    ∀ u, u ≠ url → ((s.recordFailure now url).1.score W.weight t u).1 = (s.score W.weight t u).1 := by
  refine ⟨fun w e hw he => ?_, fun w s hw hs => ⟨freshScore_recordFailure hw hs, fun u hne => ?_⟩,
    score_bounds h ht, score_recordFailure h ht, fun u hne => ?_⟩
  case refine_2 => rw [freshScore, freshScore, get?_recordFailure_of_ne hne]
  case refine_3 =>
    rw [score, score, get?_recordFailure_of_ne hne]
    cases s.data.get? u with
    | none => rfl
    | some e => rfl
  obtain ⟨hlower, hupper⟩ := StatsEntry.freshScore_bounds t hw he
  exact ⟨hlower, hupper, StatsEntry.successRate_le_one, fun pre ts lat post lat' hlat hle =>
    StatsEntry.freshScore_raise hw he hlat hle⟩

theorem score_falls_on_failure : ∃ s, (machine halfLife.weight 0).Reach (fun _ c => c.NonnegLatency) (s, 0) ∧
    (s.entry "http://10.0.0.1:8080").latencyMs = [(0, 250)] ∧
      ((s.recordFailure 1 "http://10.0.0.1:8080").1.score halfLife.weight 1 "http://10.0.0.1:8080").1 ≤
        (s.score halfLife.weight 1 "http://10.0.0.1:8080").1 := by
  have hreach : (machine halfLife.weight 0).Reach (fun _ c => c.NonnegLatency)
      (empty.recordSuccess 0 "http://10.0.0.1:8080" 100 250, 0) :=
    reach_recordSuccess (by norm_num [Call.NonnegLatency])
  exact ⟨_, hreach, rfl, (score_bounded_monotone hreach zero_le_one).2.2.2.1⟩

end ProxyStats

end ProxySplit
