import ProxySplit.ScoreBounds

namespace ProxySplit

open Lib

variable {K : Type} [Field K] [LinearOrder K]

section Median

variable [IsStrictOrderedRing K] {scores : List K}

theorem median_pos_iff (hne : scores ≠ []) (hsorted : scores.Pairwise (· ≤ ·))
    (hnonneg : ∀ x ∈ scores, 0 ≤ x) :
    0 < median scores ↔ 2 * scores.countP (· = 0) ≤ scores.length := by
  have hlength : 0 < scores.length := List.length_pos_iff.mpr hne
  rw [median]
  split
  · rw [getD_pos_iff hsorted hnonneg]
    omega
  · next heven =>
    have hnonneg' : ∀ j, 0 ≤ scores.getD j 0 := by
      intro j
      rcases lt_or_ge j scores.length with hj | hj
      · rw [List.getD_eq_getElem _ _ hj]
        exact hnonneg _ (List.getElem_mem hj)
      · rw [List.getD_eq_default _ _ hj]
    have hupper : 0 < (scores.getD (scores.length / 2 - 1) 0 + scores.getD (scores.length / 2) 0) / 2 ↔
        0 < scores.getD (scores.length / 2) 0 := by
      constructor
      · intro hsum
        by_contra hzero
        have hlower : 0 < scores.getD (scores.length / 2 - 1) 0 := by linarith
        rw [getD_pos_iff hsorted hnonneg] at hlower hzero
        omega
      · intro hpos
        have hlower := hnonneg' (scores.length / 2 - 1)
        linarith
    rw [hupper, getD_pos_iff hsorted hnonneg]
    omega

end Median

section Size

variable [FloorRing K] {scores : List K} {x y : K} {baseSize minimum maximum : Int}

theorem truncate_mono (h : x ≤ y) : truncate x ≤ truncate y := by
  rw [truncate, truncate]
  split
  · next hx =>
    rw [if_pos (hx.trans h)]
    exact Int.floor_mono h
  · next hx =>
    have hceil : ⌈x⌉ ≤ 0 := Int.ceil_le.mpr (by exact_mod_cast (not_le.mp hx).le)
    split
    · next hy => exact hceil.trans (Int.floor_nonneg.mpr hy)
    · exact Int.ceil_mono h

namespace ProxyStats

theorem chunkSize_clamped_iff (hle : minimum ≤ maximum) :
    (minimum ≤ chunkSize scores x baseSize minimum maximum ∧
      chunkSize scores x baseSize minimum maximum ≤ maximum) ↔
    scores ≠ [] ∧ 0 < median scores ∨ minimum ≤ baseSize ∧ baseSize ≤ maximum := by
  rw [chunkSize]
  split
  · next hnil => simp [hnil]
  · next hne =>
    split
    · next hmedian => simp [not_lt.mpr hmedian]
    · next hmedian =>
      have hscaled : scores ≠ [] ∧ 0 < median scores := ⟨hne, not_le.mp hmedian⟩
      simp only [hscaled, ne_eq, not_false_eq_true, and_self, true_or, iff_true]
      omega

variable [IsStrictOrderedRing K]

theorem chunkSize_mono (hbase : 0 ≤ baseSize) (h : x ≤ y) :
    chunkSize scores x baseSize minimum maximum ≤ chunkSize scores y baseSize minimum maximum := by
  rw [chunkSize, chunkSize]
  split
  · exact le_rfl
  · split
    · exact le_rfl
    · next hmedian =>
      have hquotient := div_le_div_of_nonneg_right h (not_le.mp hmedian).le
      have hscaled := mul_le_mul_of_nonneg_left hquotient (Int.cast_nonneg hbase : (0 : K) ≤ baseSize)
      have htruncate := truncate_mono hscaled
      omega

end ProxyStats

end Size

namespace ProxyStats

def FailedOnly (e : StatsEntry K) : Prop := e.success = 0 ∧ 0 < e.failure

instance (e : StatsEntry K) : Decidable (FailedOnly e) := inferInstanceAs (Decidable (_ ∧ _))

variable [IsStrictOrderedRing K] [FloorRing K] {W : DecayWeight K} {start clock now : ℚ} {s : ProxyStats K}
  {w : ℚ → K} {e : StatsEntry K}

theorem freshScore_eq_zero_iff (hw : ∀ a, 0 ≤ a → 0 < w a) (h : e.Nonneg) :
    e.freshScore w now = 0 ↔ FailedOnly e := by
  have hsr : e.successRate = 0 ↔ FailedOnly e := by
    rw [StatsEntry.successRate, FailedOnly]
    split
    · next hnone =>
      have hfailure : ¬ 0 < e.failure := by omega
      simp [hfailure]
    · next hsome =>
      rw [div_eq_zero_iff, Nat.cast_eq_zero, Nat.cast_eq_zero]
      omega
  rw [← hsr, StatsEntry.freshScore]
  split
  · simp
  · next hne =>
    have hone := StatsEntry.one_le_divisor now hw h hne
    rw [div_eq_zero_iff, or_iff_left]
    linarith

/-- Some proxy is tracked, and no more than half of those tracked have failed only. -/
def AtMostHalfFailed (s : ProxyStats K) : Prop :=
  s.data.entries ≠ [] ∧ 2 * s.data.entries.countP (fun p => FailedOnly p.2) ≤ s.data.entries.length

theorem median_allScores_pos_iff (h : (machine W.weight start).Reach (fun _ c => c.NonnegLatency) (s, clock))
    (hnow : clock ≤ now) :
    (s.data.entries.map fun p => p.2.score W.weight now).mergeSort (· ≤ ·) ≠ [] ∧
      0 < median ((s.data.entries.map fun p => p.2.score W.weight now).mergeSort (· ≤ ·)) ↔
        AtMostHalfFailed s := by
  have hsound := sound_of_reachable h.reachable
  have hnonneg := nonneg_of_reach h
  have hfresh : ∀ p ∈ s.data.entries, p.2.score W.weight now = p.2.freshScore W.weight now :=
    fun p hp => (hsound p.1 p.2 ((s.data.mem_entries_iff ..).mp hp)).score_eq hnow
  have hperm : ((s.data.entries.map fun p => p.2.score W.weight now).mergeSort (· ≤ ·)).Perm
      (s.data.entries.map fun p => p.2.score W.weight now) := List.mergeSort_perm ..
  have hnil : (s.data.entries.map fun p => p.2.score W.weight now).mergeSort (· ≤ ·) ≠ [] ↔
      s.data.entries ≠ [] := by
    rw [ne_eq, ← List.length_eq_zero_iff, hperm.length_eq, List.length_map, List.length_eq_zero_iff]
  rw [AtMostHalfFailed, hnil]
  refine and_congr_right fun hne => ?_
  rw [median_pos_iff (hnil.mpr hne) (List.pairwise_mergeSort' (· ≤ ·) _), hperm.length_eq, hperm.countP_eq,
    List.length_map, List.countP_map]
  · have hcount : s.data.entries.countP ((fun x => decide (x = 0)) ∘ fun p => p.2.score W.weight now) =
        s.data.entries.countP fun p => FailedOnly p.2 := by
      refine List.countP_congr fun p hp => ?_
      rw [Function.comp_apply, decide_eq_true_eq, decide_eq_true_eq, hfresh p hp]
      exact freshScore_eq_zero_iff (fun a => W.pos a) (hnonneg p.1 p.2 ((s.data.mem_entries_iff ..).mp hp))
    rw [hcount]
  · intro x hx
    obtain ⟨p, hp, rfl⟩ := List.mem_map.mp (hperm.mem_iff.mp hx)
    rw [hfresh p hp]
    have he := hnonneg p.1 p.2 ((s.data.mem_entries_iff ..).mp hp)
    exact (StatsEntry.freshScore_bounds _ (fun a => W.pos a) he).1

omit [IsStrictOrderedRing K] [FloorRing K] in
theorem score_entry_scoreAll {url : Url} (h : (s.data.get? url).isSome) :
    ((s.scoreAll w now).entry url).score w now = (s.score w now url).1 := by
  obtain ⟨e, he⟩ := Option.isSome_iff_exists.mp h
  rw [entry, scoreAll, Dict.get?_mapValues, score, he]
  rfl

/-- The sizes are within their bounds exactly when no more than half of the proxies have failed only or the
base size is within them, and of two proxies the better one gets no smaller size. -/
theorem perProxyChunkSize_clamped_mono (baseSize minimum maximum : Int) (hbase : 1 ≤ baseSize)
    (hle : minimum ≤ maximum) :
    (∀ s clock now url, (machine W.weight start).Reach (fun _ c => c.NonnegLatency) (s, clock) → clock ≤ now →
      ((minimum ≤ (s.perProxyChunkSize W.weight now url baseSize minimum maximum).1 ∧
          (s.perProxyChunkSize W.weight now url baseSize minimum maximum).1 ≤ maximum) ↔
        AtMostHalfFailed s ∨ minimum ≤ baseSize ∧ baseSize ≤ maximum)) ∧
    ∀ (w : ℚ → K) (s : ProxyStats K) now url url', (s.data.get? url).isSome → (s.data.get? url').isSome →
      (s.score w now url).1 ≤ (s.score w now url').1 →
        (s.perProxyChunkSize w now url baseSize minimum maximum).1 ≤
          (s.perProxyChunkSize w now url' baseSize minimum maximum).1 := by
  constructor
  · intro s clock now url h hnow
    rw [← median_allScores_pos_iff h hnow]
    exact chunkSize_clamped_iff hle
  · intro w s now url url' hurl hurl' hscore
    refine chunkSize_mono (zero_le_one.trans hbase) ?_
    rw [score_entry_scoreAll hurl, score_entry_scoreAll hurl']
    exact hscore

theorem perProxyChunkSize_of_success : ∃ s,
    (machine halfLife.weight 0).Reach (fun _ c => c.NonnegLatency) (s, 0) ∧
    100 ≤ (s.perProxyChunkSize halfLife.weight 1 "http://10.0.0.1:8080" 10 100 200).1 ∧
      (s.perProxyChunkSize halfLife.weight 1 "http://10.0.0.1:8080" 10 100 200).1 ≤ 200 := by
  have hreach : (machine halfLife.weight 0).Reach (fun _ c => c.NonnegLatency)
      (empty.recordSuccess 0 "http://10.0.0.1:8080" 100 250, 0) :=
    reach_recordSuccess (by norm_num [Call.NonnegLatency])
  have hmost : AtMostHalfFailed
      ((empty : ProxyStats ℝ).recordSuccess 0 "http://10.0.0.1:8080" 100 250) := by
    refine ⟨List.cons_ne_nil _ _, ?_⟩
    simp [recordSuccess, update, empty, Dict.set, Dict.assign, Dict.empty, FailedOnly]
  have hclamped := (perProxyChunkSize_clamped_mono 10 100 200 (by decide) (by decide)).1 _ _ _
    "http://10.0.0.1:8080" hreach zero_le_one
  exact ⟨_, hreach, hclamped.mpr (.inl hmost)⟩

/-- Without a tracked proxy the base size is returned as it is. -/
theorem not_clamped_empty : (machine halfLife.weight 0).Reach (fun _ c => c.NonnegLatency) (empty, 0) ∧
    ¬ 100 ≤ ((empty : ProxyStats ℝ).perProxyChunkSize halfLife.weight 0 "http://10.0.0.1:8080"
      10 100 200).1 := by
  have hbase : ((empty : ProxyStats ℝ).perProxyChunkSize halfLife.weight 0 "http://10.0.0.1:8080"
      10 100 200).1 = 10 := if_pos List.mergeSort_nil
  refine ⟨.init, ?_⟩
  rw [hbase]
  decide

end ProxyStats

end ProxySplit
