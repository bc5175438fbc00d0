import ProxySplit.AdaptiveChunkSizer
import ProxySplit.Lib.Smoothing

namespace ProxySplit.AdaptiveChunkSizer

open Lib

variable {s : AdaptiveChunkSizer} {xs : List ℚ} {lo hi b : ℚ}

/-- The sizer behind a run of `record`. -/
def records (s : AdaptiveChunkSizer) (xs : List ℚ) : AdaptiveChunkSizer := xs.foldl record s

theorem records_concat (s : AdaptiveChunkSizer) (xs : List ℚ) (x : ℚ) :
    s.records (xs ++ [x]) = (s.records xs).record x := List.foldl_concat _ _ _ _

/-- What decides where the size goes: chunks that are all fast, all slow, or all in time. -/
structure Settles (s : AdaptiveChunkSizer) : Prop where
  fast : ∀ hi, hi < s.targetMs / (3 / 2) → ∃ n, ∀ xs, n ≤ xs.length → (∀ x ∈ xs, 0 < x ∧ x ≤ hi) →
    (s.records xs).current = s.maximum
  slow : ∀ lo, s.targetMs / (3 / 5) < lo → ∃ n, ∀ xs, n ≤ xs.length → (∀ x ∈ xs, lo ≤ x) →
    (s.records xs).current = s.minimum
  steady : ∀ lo hi, s.targetMs / (3 / 2) < lo → hi < s.targetMs / (3 / 5) → ∃ n, ∀ xs ys, n ≤ xs.length →
    (∀ x ∈ xs ++ ys, lo ≤ x ∧ x ≤ hi) → (s.records (xs ++ ys)).current = (s.records xs).current

theorem params_records (s : AdaptiveChunkSizer) (xs : List ℚ) : (s.records xs).minimum = s.minimum ∧
    (s.records xs).maximum = s.maximum ∧ (s.records xs).targetMs = s.targetMs := by
  induction xs using List.reverseRecOn with
  | nil => exact ⟨rfl, rfl, rfl⟩
  | append_singleton xs x ih =>
    obtain ⟨hmin, hmax, htarget, -⟩ := record_params (s.records xs) x
    rw [records_concat, hmin, hmax, htarget]
    exact ih

theorem Bounded.records (h : s.Bounded) (hpos : ∀ x ∈ xs, 0 < x) : (s.records xs).Bounded := by
  induction xs using List.reverseRecOn with
  | nil => exact h
  | append_singleton xs x ih =>
    obtain ⟨hxs, hx⟩ := List.forall_mem_append.mp hpos
    rw [records_concat]
    exact (ih hxs).record (hx x List.mem_cons_self)

theorem emaMs_records {ema : ℚ} (h : s.emaMs = some ema) (xs : List ℚ) :
    (s.records xs).emaMs = some (smooth (1 / 4) ema xs) := by
  induction xs using List.reverseRecOn with
  | nil => exact h
  | append_singleton xs x ih => rw [records_concat, (record_params ..).2.2.2, nextEma, ih, smooth_concat]

theorem emaMs_records_of_none (h : s.emaMs = none) (x : ℚ) (xs : List ℚ) :
    (s.records (x :: xs)).emaMs = some (smooth (1 / 4) x xs) := by
  refine emaMs_records (s := s.record x) ?_ xs
  rw [(record_params ..).2.2.2, nextEma, h]

theorem exists_emaMs_lt (s : AdaptiveChunkSizer) (hb : hi < b) : ∃ n, 0 < n ∧ ∀ xs, n ≤ xs.length →
    (∀ x ∈ xs, x ≤ hi) → ∃ ema, (s.records xs).emaMs = some ema ∧ ema < b := by
  cases hs : s.emaMs with
  | none =>
    refine ⟨1, one_pos, fun xs hlen hxs => ?_⟩
    obtain ⟨x, xs, rfl⟩ := List.exists_cons_of_length_pos hlen
    obtain ⟨hx, hxs⟩ := List.forall_mem_cons.mp hxs
    have hema := smooth_le_of_le (a := (1 / 4 : ℚ)) (by norm_num) (by norm_num) hx hxs
    exact ⟨_, emaMs_records_of_none hs x xs, hema.trans_lt hb⟩
  | some ema =>
    obtain ⟨n, hn⟩ := exists_smooth_lt (a := (1 / 4 : ℚ)) (by norm_num) (by norm_num) hb ema
    exact ⟨n + 1, n.succ_pos, fun xs hlen hxs => ⟨_, emaMs_records hs xs, hn xs (by omega) hxs⟩⟩

theorem exists_lt_emaMs (s : AdaptiveChunkSizer) (hb : b < lo) : ∃ n, 0 < n ∧ ∀ xs, n ≤ xs.length →
    (∀ x ∈ xs, lo ≤ x) → ∃ ema, (s.records xs).emaMs = some ema ∧ b < ema := by
  cases hs : s.emaMs with
  | none =>
    refine ⟨1, one_pos, fun xs hlen hxs => ?_⟩
    obtain ⟨x, xs, rfl⟩ := List.exists_cons_of_length_pos hlen
    obtain ⟨hx, hxs⟩ := List.forall_mem_cons.mp hxs
    have hema := le_smooth_of_le (a := (1 / 4 : ℚ)) (by norm_num) (by norm_num) hx hxs
    exact ⟨_, emaMs_records_of_none hs x xs, hb.trans_le hema⟩
  | some ema =>
    obtain ⟨n, hn⟩ := exists_lt_smooth (a := (1 / 4 : ℚ)) (by norm_num) (by norm_num) hb ema
    exact ⟨n + 1, n.succ_pos, fun xs hlen hxs => ⟨_, emaMs_records hs xs, hn xs (by omega) hxs⟩⟩

theorem Bounded.fast_step {x : ℚ} (h : s.Bounded) (htwo : 2 ≤ s.minimum) (hx : 0 < x)
    (hfast : ∃ ema, (s.record x).emaMs = some ema ∧ ema < s.targetMs / (3 / 2)) :
    min (s.current + 1) s.maximum ≤ (s.record x).current := by
  obtain ⟨ema, hema, hlt⟩ := hfast
  rw [(record_params ..).2.2.2, Option.some_inj] at hema
  have := h.lower
  rw [record_of_fast (nextEma_pos h.ema hx) (hema ▸ hlt), Int.tdiv_eq_ediv_of_nonneg (by omega)]
  omega

theorem Bounded.slow_step {x : ℚ} (h : s.Bounded) (hx : 0 < x)
    (hslow : ∃ ema, (s.record x).emaMs = some ema ∧ s.targetMs / (3 / 5) < ema) :
    (s.record x).current ≤ max (s.current - 1) s.minimum := by
  obtain ⟨ema, hema, hlt⟩ := hslow
  rw [(record_params ..).2.2.2, Option.some_inj] at hema
  have := h.lower
  have := h.one_le
  rw [record_of_slow (nextEma_pos h.ema hx) (hema ▸ hlt), Int.tdiv_eq_ediv_of_nonneg (by omega)]
  omega

theorem Bounded.steady_step {x : ℚ} (h : s.Bounded) (hx : 0 < x)
    (hfast : ∃ ema, (s.record x).emaMs = some ema ∧ s.targetMs / (3 / 2) < ema)
    (hslow : ∃ ema, (s.record x).emaMs = some ema ∧ ema < s.targetMs / (3 / 5)) :
    (s.record x).current = s.current := by
  obtain ⟨ema, hema, hlow⟩ := hfast
  obtain ⟨ema', hema', hhigh⟩ := hslow
  rw [(record_params ..).2.2.2, Option.some_inj] at hema hema'
  subst hema hema'
  rcases record_cases (nextEma_pos h.ema hx) with ⟨hlt, -⟩ | ⟨hlt, -⟩ | ⟨-, -, heq⟩
  · exact absurd hlow hlt.not_gt
  · exact absurd hhigh hlt.not_gt
  · exact heq

theorem Bounded.le_current_records (h : s.Bounded) (htwo : 2 ≤ s.minimum) {n : ℕ} (hn : ∀ xs, n ≤ xs.length →
      (∀ x ∈ xs, x ≤ hi) → ∃ ema, (s.records xs).emaMs = some ema ∧ ema < s.targetMs / (3 / 2))
    (hxs : ∀ x ∈ xs, 0 < x ∧ x ≤ hi) :
    min (s.minimum + (xs.length - n : ℕ)) s.maximum ≤ (s.records xs).current := by
  induction xs using List.reverseRecOn with
  | nil =>
    rw [List.length_nil, Nat.zero_sub, Nat.cast_zero, add_zero]
    exact (min_le_left _ _).trans h.lower
  | append_singleton xs x ih =>
    obtain ⟨hpre, hx⟩ := List.forall_mem_append.mp hxs
    have hx := (hx x List.mem_cons_self).1
    have hbounded : (s.records xs).Bounded := h.records fun x hx => (hpre x hx).1
    obtain ⟨hmin, hmax, htarget⟩ := params_records s xs
    have hlower := (hbounded.record hx).lower
    rw [(record_params ..).1, hmin] at hlower
    rw [List.length_append, List.length_singleton, records_concat]
    rcases lt_or_ge xs.length n with hlt | hle
    · rw [Nat.sub_eq_zero_of_le hlt, Nat.cast_zero, add_zero]
      exact (min_le_left _ _).trans hlower
    · have hema := hn (xs ++ [x]) (by simp; omega) fun x hx => (hxs x hx).2
      rw [records_concat, ← htarget] at hema
      have hstep := hbounded.fast_step (hmin ▸ htwo) hx hema
      have hrest := ih hpre
      rw [hmax] at hstep
      omega

theorem Bounded.current_records_le (h : s.Bounded) {n : ℕ} (hn : ∀ xs, n ≤ xs.length →
      (∀ x ∈ xs, lo ≤ x) → ∃ ema, (s.records xs).emaMs = some ema ∧ s.targetMs / (3 / 5) < ema)
    (hxs : ∀ x ∈ xs, 0 < x ∧ lo ≤ x) :
    (s.records xs).current ≤ max (s.maximum - (xs.length - n : ℕ)) s.minimum := by
  induction xs using List.reverseRecOn with
  | nil =>
    rw [List.length_nil, Nat.zero_sub, Nat.cast_zero, sub_zero]
    exact h.upper.trans (le_max_left _ _)
  | append_singleton xs x ih =>
    obtain ⟨hpre, hx⟩ := List.forall_mem_append.mp hxs
    have hx := (hx x List.mem_cons_self).1
    have hbounded : (s.records xs).Bounded := h.records fun x hx => (hpre x hx).1
    obtain ⟨hmin, hmax, htarget⟩ := params_records s xs
    have hupper := (hbounded.record hx).upper
    rw [(record_params ..).2.1, hmax] at hupper
    rw [List.length_append, List.length_singleton, records_concat]
    rcases lt_or_ge xs.length n with hlt | hle
    · rw [Nat.sub_eq_zero_of_le hlt, Nat.cast_zero, sub_zero]
      exact hupper.trans (le_max_left _ _)
    · have hema := hn (xs ++ [x]) (by simp; omega) fun x hx => (hxs x hx).2
      rw [records_concat, ← htarget] at hema
      have hstep := hbounded.slow_step hx hema
      have hrest := ih hpre
      rw [hmin] at hstep
      omega

theorem Bounded.exists_fast (h : s.Bounded) (htwo : 2 ≤ s.minimum) (hhi : hi < s.targetMs / (3 / 2)) :
    ∃ n, ∀ xs, n ≤ xs.length → (∀ x ∈ xs, 0 < x ∧ x ≤ hi) → (s.records xs).current = s.maximum := by
  obtain ⟨n, -, hn⟩ := exists_emaMs_lt s hhi
  refine ⟨n + (s.maximum - s.minimum).toNat, fun xs hlen hxs => ?_⟩
  have hlow := h.le_current_records htwo hn hxs
  have hhigh := (h.records fun x hx => (hxs x hx).1).upper
  rw [(params_records s xs).2.1] at hhigh
  omega

theorem Bounded.exists_slow (h : s.Bounded) (htarget : 0 < s.targetMs) (hlo : s.targetMs / (3 / 5) < lo) :
    ∃ n, ∀ xs, n ≤ xs.length → (∀ x ∈ xs, lo ≤ x) → (s.records xs).current = s.minimum := by
  obtain ⟨n, -, hn⟩ := exists_lt_emaMs s hlo
  have hpos : 0 < lo := (div_pos htarget (by norm_num)).trans hlo
  refine ⟨n + (s.maximum - s.minimum).toNat, fun xs hlen hxs => ?_⟩
  have hhigh := h.current_records_le hn fun x hx => ⟨hpos.trans_le (hxs x hx), hxs x hx⟩
  have hlow := (h.records fun x hx => hpos.trans_le (hxs x hx)).lower
  rw [(params_records s xs).1] at hlow
  omega

theorem Bounded.exists_steady (h : s.Bounded) (htarget : 0 < s.targetMs) (hlo : s.targetMs / (3 / 2) < lo)
    (hhi : hi < s.targetMs / (3 / 5)) : ∃ n, ∀ xs ys, n ≤ xs.length → (∀ x ∈ xs ++ ys, lo ≤ x ∧ x ≤ hi) →
      (s.records (xs ++ ys)).current = (s.records xs).current := by
  obtain ⟨n, -, hn⟩ := exists_lt_emaMs s hlo
  obtain ⟨n', -, hn'⟩ := exists_emaMs_lt s hhi
  have hpos : 0 < lo := (div_pos htarget (by norm_num)).trans hlo
  refine ⟨max n n', fun xs ys hlen hxs => ?_⟩
  induction ys using List.reverseRecOn with
  | nil => rw [List.append_nil]
  | append_singleton ys y ih =>
    rw [← List.append_assoc] at hxs ⊢
    obtain ⟨hpre, hy⟩ := List.forall_mem_append.mp hxs
    have hbounded : (s.records (xs ++ ys)).Bounded := h.records fun x hx => hpos.trans_le (hpre x hx).1
    have hlong : max n n' ≤ (xs ++ ys ++ [y]).length := by
      simp only [List.length_append]
      omega
    have hlow := hn _ ((le_max_left _ _).trans hlong) fun x hx => (hxs x hx).1
    have hhigh := hn' _ ((le_max_right _ _).trans hlong) fun x hx => (hxs x hx).2
    rw [records_concat, ← (params_records s (xs ++ ys)).2.2] at hlow hhigh
    rw [records_concat, hbounded.steady_step (hpos.trans_le (hy y List.mem_cons_self).1) hlow hhigh, ih hpre]

theorem current_records_one (hmin : s.minimum = 1) (hmax : 1 ≤ s.maximum) (hone : s.current = 1)
    (h : s.Bounded) (hxs : ∀ x ∈ xs, 0 < x) : (s.records xs).current = 1 := by
  induction xs using List.reverseRecOn with
  | nil => exact hone
  | append_singleton xs x ih =>
    obtain ⟨hpre, hx⟩ := List.forall_mem_append.mp hxs
    have hbounded : (s.records xs).Bounded := h.records hpre
    obtain ⟨hmin', hmax', -⟩ := params_records s xs
    have hrest := ih hpre
    rw [records_concat]
    rcases record_cases (nextEma_pos hbounded.ema (hx x List.mem_cons_self)) with ⟨-, h⟩ | ⟨-, h⟩ | ⟨-, -, h⟩
    · have hround : (1 * 15 : Int).tdiv 10 = 1 := by decide
      rw [h, hrest, hmax', hround]
      omega
    · rw [h, hrest, hmin', hmin]
      rfl
    · rw [h, hrest]

variable {initial minimum maximum : Int} {targetMs : ℚ}

theorem reach_records (h : (machine initial minimum maximum targetMs).Reach Positive s)
    (hxs : ∀ x ∈ xs, 0 < x) : (machine initial minimum maximum targetMs).Reach Positive (s.records xs) := by
  induction xs using List.reverseRecOn with
  | nil => exact h
  | append_singleton xs x ih =>
    obtain ⟨hpre, hx⟩ := List.forall_mem_append.mp hxs
    rw [records_concat]
    exact .step (ih hpre) (hx x List.mem_cons_self) rfl

/-- From every state that samples lead to, chunks that are fast, slow or in time from then on take the size to
the maximum, to the minimum or to rest, unless the minimum is one: the size can then be stuck there. -/
theorem size_settles_iff (hone : 1 ≤ minimum) (hlower : minimum ≤ initial) (hupper : initial ≤ maximum)
    (htarget : 0 < targetMs) :
    (∀ s, (machine initial minimum maximum targetMs).Reach Positive s → s.Settles) ↔
      2 ≤ minimum ∨ maximum = 1 := by
  constructor
  · intro h
    by_contra! hnot
    obtain ⟨hlt, hmaximum⟩ := hnot
    obtain rfl : minimum = 1 := by omega
    have hinit : (machine initial 1 maximum targetMs).Reach Positive (new initial 1 maximum targetMs) := .init
    have hslow : targetMs / (3 / 5) < 2 * targetMs := by
      rw [div_lt_iff₀ (by norm_num)]
      linarith
    have hfast : targetMs / 2 < targetMs / (3 / 2) := by
      rw [div_lt_div_iff₀ (by norm_num) (by norm_num)]
      linarith
    obtain ⟨n, hn⟩ := (h _ hinit).slow (2 * targetMs) hslow
    have hdown := hn (List.replicate n (2 * targetMs)) (by simp) fun x hx => (List.eq_of_mem_replicate hx).ge
    have hlate : ∀ x ∈ List.replicate n (2 * targetMs), 0 < x := by
      intro x hx
      rw [List.eq_of_mem_replicate hx]
      linarith
    have hreach := reach_records hinit hlate
    obtain ⟨hmin, hmax, htarget'⟩ := configured_of_reach hreach
    have hbounded := bounded_of_reach le_rfl hlower hupper hreach
    obtain ⟨m, hm⟩ := (h _ hreach).fast (targetMs / 2) (by rw [htarget']; exact hfast)
    have hpos : ∀ x ∈ List.replicate m (targetMs / 2), 0 < x ∧ x ≤ targetMs / 2 := by
      intro x hx
      rw [List.eq_of_mem_replicate hx]
      exact ⟨half_pos htarget, le_rfl⟩
    have hup := hm (List.replicate m (targetMs / 2)) (by simp) hpos
    rw [current_records_one hmin (by omega) hdown hbounded fun x hx => (hpos x hx).1, hmax] at hup
    exact hmaximum hup.symm
  · intro h s hs
    obtain ⟨hmin, hmax, htarget'⟩ := configured_of_reach hs
    have hbounded := bounded_of_reach hone hlower hupper hs
    refine ⟨fun hi hhi => ?_, fun lo hlo => hbounded.exists_slow (htarget' ▸ htarget) hlo,
      fun lo hi hlo hhi => hbounded.exists_steady (htarget' ▸ htarget) hlo hhi⟩
    rcases h with htwo | hmaximum
    · exact hbounded.exists_fast (hmin ▸ htwo) hhi
    · refine ⟨0, fun xs _ hxs => ?_⟩
      have hkept := hbounded.records fun x hx => (hxs x hx).1
      have hlow := hkept.lower
      have hhigh := hkept.upper
      rw [(params_records s xs).1] at hlow
      rw [(params_records s xs).2.1] at hhigh
      omega

theorem settles_default : (new 524288 65536 4194304 800).Settles := by
  have hreach : (machine 524288 65536 4194304 800).Reach Positive (new 524288 65536 4194304 800) := .init
  exact (size_settles_iff (by decide) (by decide) (by decide) (by norm_num)).mpr (.inl (by decide)) _ hreach

end ProxySplit.AdaptiveChunkSizer
