import ProxySplit.ProxyStats
import ProxySplit.Handlers.Window
import ProxySplit.Lib.Machine

namespace ProxySplit

open Lib

structure AdaptiveChunkSizer where
  current : Int
  minimum : Int
  maximum : Int
  targetMs : ℚ
  emaMs : Option ℚ
  window : List ℚ
  deriving DecidableEq

namespace AdaptiveChunkSizer

def new (initial minimum maximum : Int) (targetMs : ℚ) : AdaptiveChunkSizer :=
  ⟨initial, minimum, maximum, targetMs, none, []⟩

/-- `_adjust`.  `int` rounds the products towards zero. -/
def adjust (s : AdaptiveChunkSizer) : AdaptiveChunkSizer :=
  match s.emaMs with
  | none => s
  | some ema =>
    if ema ≤ 0 then s
    else if 3 / 2 < s.targetMs / ema then { s with current := min ((s.current * 15).tdiv 10) s.maximum }
    else if s.targetMs / ema < 3 / 5 then { s with current := max ((s.current * 6).tdiv 10) s.minimum }
    else s

def nextEma (s : AdaptiveChunkSizer) (elapsedMs : ℚ) : ℚ :=
  match s.emaMs with
  | none => elapsedMs
  | some ema => 1 / 4 * elapsedMs + (1 - 1 / 4) * ema

def record (s : AdaptiveChunkSizer) (elapsedMs : ℚ) : AdaptiveChunkSizer :=
  adjust { s with window := appendMax 10 s.window elapsedMs, emaMs := some (s.nextEma elapsedMs) }

def machine (initial minimum maximum : Int) (targetMs : ℚ) : Machine AdaptiveChunkSizer ℚ :=
  ⟨new initial minimum maximum targetMs, fun s elapsedMs => some (s.record elapsedMs)⟩

def Positive (_ : AdaptiveChunkSizer) (elapsedMs : ℚ) : Prop := 0 < elapsedMs

/-- `build_ranges` comes to an end with this size. -/
structure Usable (s : AdaptiveChunkSizer) : Prop where
  pos : 1 ≤ s.current
  splits : ∀ start stop, (buildRanges s.current start stop).isSome

/-- A call leaves the size within the bounds if it changes it, and moves it the way the times ask for. -/
structure StepUsable (s s' : AdaptiveChunkSizer) : Prop where
  bounded : s'.current ≠ s.current → s.minimum ≤ s'.current ∧ s'.current ≤ s.maximum
  fast : ∀ ema, s'.emaMs = some ema → ema < s.targetMs / (3 / 2) → s.current ≤ s'.current
  slow : ∀ ema, s'.emaMs = some ema → s.targetMs / (3 / 5) < ema → s'.current ≤ s.current

section Steps

variable {s : AdaptiveChunkSizer} {elapsedMs : ℚ}

theorem usable_of_pos (h : 1 ≤ s.current) : s.Usable where
  pos := h
  splits start stop := by
    rcases lt_or_ge stop start with hlt | hle
    · rw [buildRanges_of_lt hlt]
      rfl
    · have hstart : start ≤ stop + 1 := by omega
      obtain ⟨ranges, hranges, -⟩ := buildRanges_spec h hstart
      rw [hranges]
      rfl

theorem record_cases (hema : 0 < s.nextEma elapsedMs) :
    (s.nextEma elapsedMs < s.targetMs / (3 / 2) ∧
      (s.record elapsedMs).current = min ((s.current * 15).tdiv 10) s.maximum) ∨
    (s.targetMs / (3 / 5) < s.nextEma elapsedMs ∧
      (s.record elapsedMs).current = max ((s.current * 6).tdiv 10) s.minimum) ∨
    (¬ s.nextEma elapsedMs < s.targetMs / (3 / 2) ∧ ¬ s.targetMs / (3 / 5) < s.nextEma elapsedMs ∧
      (s.record elapsedMs).current = s.current) := by
  have hfast : 3 / 2 < s.targetMs / s.nextEma elapsedMs ↔ s.nextEma elapsedMs < s.targetMs / (3 / 2) := by
    rw [lt_div_iff₀ hema, lt_div_iff₀ (by norm_num), mul_comm]
  have hslow : s.targetMs / s.nextEma elapsedMs < 3 / 5 ↔ s.targetMs / (3 / 5) < s.nextEma elapsedMs := by
    rw [div_lt_iff₀ hema, div_lt_iff₀ (by norm_num), mul_comm]
  rw [record, adjust]
  dsimp only
  rw [if_neg (not_le.mpr hema)]
  split
  · next h => exact .inl ⟨hfast.mp h, rfl⟩
  · next h =>
    split
    · next h' => exact .inr (.inl ⟨hslow.mp h', rfl⟩)
    · next h' => exact .inr (.inr ⟨hfast.not.mp h, hslow.not.mp h', rfl⟩)

theorem not_slow_of_fast {ema : ℚ} (hema : 0 < ema) (hfast : ema < s.targetMs / (3 / 2)) :
    ¬ s.targetMs / (3 / 5) < ema := by
  rw [lt_div_iff₀ (by norm_num)] at hfast
  rw [not_lt, le_div_iff₀ (by norm_num)]
  linarith

theorem record_of_fast (hema : 0 < s.nextEma elapsedMs)
    (hfast : s.nextEma elapsedMs < s.targetMs / (3 / 2)) :
    (s.record elapsedMs).current = min ((s.current * 15).tdiv 10) s.maximum := by
  rcases record_cases hema with ⟨-, h⟩ | ⟨hslow, -⟩ | ⟨hnot, -⟩
  · exact h
  · exact absurd hslow (not_slow_of_fast hema hfast)
  · exact absurd hfast hnot

theorem record_of_slow (hema : 0 < s.nextEma elapsedMs)
    (hslow : s.targetMs / (3 / 5) < s.nextEma elapsedMs) :
    (s.record elapsedMs).current = max ((s.current * 6).tdiv 10) s.minimum := by
  rcases record_cases hema with ⟨hfast, -⟩ | ⟨-, h⟩ | ⟨-, hnot, -⟩
  · exact absurd hslow (not_slow_of_fast hema hfast)
  · exact h
  · exact absurd hslow hnot

variable (s elapsedMs) in
theorem record_params : (s.record elapsedMs).minimum = s.minimum ∧ (s.record elapsedMs).maximum = s.maximum ∧
    (s.record elapsedMs).targetMs = s.targetMs ∧ (s.record elapsedMs).emaMs = some (s.nextEma elapsedMs) := by
  rw [record, adjust]
  dsimp only
  split
  · exact ⟨rfl, rfl, rfl, rfl⟩
  · split
    · exact ⟨rfl, rfl, rfl, rfl⟩
    · split
      · exact ⟨rfl, rfl, rfl, rfl⟩
      · exact ⟨rfl, rfl, rfl, rfl⟩

theorem nextEma_pos (hold : ∀ ema, s.emaMs = some ema → 0 < ema) (helapsed : 0 < elapsedMs) :
    0 < s.nextEma elapsedMs := by
  rw [nextEma]
  split
  · exact helapsed
  · next ema hema =>
    have hpos := hold ema hema
    linarith

/-- The times so far are positive, and the size is between bounds that are at least one. -/
structure Bounded (s : AdaptiveChunkSizer) : Prop where
  ema : ∀ ema, s.emaMs = some ema → 0 < ema
  one_le : 1 ≤ s.minimum
  lower : s.minimum ≤ s.current
  upper : s.current ≤ s.maximum

theorem grow_shrink {c : Int} (h : 0 ≤ c) : c ≤ (c * 15).tdiv 10 ∧ (c * 6).tdiv 10 ≤ c := by
  rw [Int.tdiv_eq_ediv_of_nonneg (by omega), Int.tdiv_eq_ediv_of_nonneg (by omega)]
  omega

theorem Bounded.record (h : s.Bounded) (helapsed : 0 < elapsedMs) : (s.record elapsedMs).Bounded := by
  obtain ⟨hmin, hmax, -, hema⟩ := record_params s elapsedMs
  have hpos := nextEma_pos h.ema helapsed
  have hone := h.one_le
  have hlower := h.lower
  have hupper := h.upper
  obtain ⟨hgrow, hshrink⟩ := grow_shrink (c := s.current) (by omega)
  have hcurrent : s.minimum ≤ (s.record elapsedMs).current ∧ (s.record elapsedMs).current ≤ s.maximum := by
    rcases record_cases hpos with ⟨-, h⟩ | ⟨-, h⟩ | ⟨-, -, h⟩
    · rw [h]; omega
    · rw [h]; omega
    · rw [h]; omega
  constructor
  case ema =>
    intro ema he
    rw [hema, Option.some.injEq] at he
    rw [← he]
    exact hpos
  case one_le => rw [hmin]; exact hone
  case lower => rw [hmin]; exact hcurrent.1
  case upper => rw [hmax]; exact hcurrent.2

theorem Bounded.stepUsable (h : s.Bounded) (helapsed : 0 < elapsedMs) :
    StepUsable s (s.record elapsedMs) := by
  obtain ⟨hmin, hmax, -, hema⟩ := record_params s elapsedMs
  have hpos := nextEma_pos h.ema helapsed
  have hnext := h.record helapsed
  have hone := h.one_le
  have hlower := h.lower
  have hupper := h.upper
  obtain ⟨hgrow, hshrink⟩ := grow_shrink (c := s.current) (by omega)
  refine ⟨fun _ => ?_, fun ema he hfast => ?_, fun ema he hslow => ?_⟩
  · rw [← hmin, ← hmax]
    exact ⟨hnext.lower, hnext.upper⟩
  · rw [hema, Option.some.injEq] at he
    rw [← he] at hfast
    rw [record_of_fast hpos hfast]
    omega
  · rw [hema, Option.some.injEq] at he
    rw [← he] at hslow
    rw [record_of_slow hpos hslow]
    omega

def Configured (minimum maximum : Int) (targetMs : ℚ) (s : AdaptiveChunkSizer) : Prop :=
  s.minimum = minimum ∧ s.maximum = maximum ∧ s.targetMs = targetMs

end Steps

section Runs

variable {initial minimum maximum : Int} {targetMs : ℚ} {s : AdaptiveChunkSizer}

theorem configured_of_reach (h : (machine initial minimum maximum targetMs).Reach Positive s) :
    Configured minimum maximum targetMs s := by
  refine h.invariant (I := Configured minimum maximum targetMs) ⟨rfl, rfl, rfl⟩ ?_
  rintro s elapsedMs _ ⟨hmin, hmax, htarget⟩ - hstep
  cases hstep
  obtain ⟨hmin', hmax', htarget', -⟩ := record_params s elapsedMs
  exact ⟨hmin'.trans hmin, hmax'.trans hmax, htarget'.trans htarget⟩

theorem bounded_of_reach (hone : 1 ≤ minimum) (hlower : minimum ≤ initial) (hupper : initial ≤ maximum)
    (h : (machine initial minimum maximum targetMs).Reach Positive s) : s.Bounded := by
  have hinit : Bounded (new initial minimum maximum targetMs) := by
    refine ⟨fun ema hema => ?_, hone, hlower, hupper⟩
    cases hema
  refine h.invariant (I := Bounded) hinit ?_
  intro s elapsedMs _ hI hok hstep
  cases hstep
  exact hI.record hok

theorem exists_reach_zero (htarget : 0 < targetMs)
    (h : (machine initial 0 maximum targetMs).Reach Positive s)
    (hema : ∀ ema, s.emaMs = some ema → ema = 2 * targetMs) :
    ∃ s', (machine initial 0 maximum targetMs).Reach Positive s' ∧ s'.current ≤ 0 := by
  induction hn : s.current.toNat using Nat.strong_induction_on generalizing s with
  | _ n ih =>
    by_cases hzero : s.current ≤ 0
    · exact ⟨s, h, hzero⟩
    · obtain ⟨hmin, -, htarget'⟩ := configured_of_reach h
      have hnext : s.nextEma (2 * targetMs) = 2 * targetMs := by
        rw [nextEma]
        split
        · rfl
        · next ema hold =>
          rw [hema ema hold]
          linarith
      have hslow : s.targetMs / (3 / 5) < s.nextEma (2 * targetMs) := by
        rw [hnext, htarget', div_lt_iff₀ (by norm_num)]
        linarith
      have hcurrent := record_of_slow (by rw [hnext]; linarith) hslow
      rw [Int.tdiv_eq_ediv_of_nonneg (by omega), hmin] at hcurrent
      have hreach : (machine initial 0 maximum targetMs).Reach Positive (s.record (2 * targetMs)) :=
        .step h (mul_pos two_pos htarget) rfl
      refine ih _ ?_ hreach (fun ema hema' => ?_) rfl
      · omega
      · rw [(record_params ..).2.2.2, hnext, Option.some.injEq] at hema'
        exact hema'.symm

/-- The size stays usable in every run exactly when the initial size is within bounds of at least one. -/
theorem usable_iff (hminimum : 0 ≤ minimum) (hle : minimum ≤ maximum) (htarget : 0 < targetMs) :
    (∀ s, (machine initial minimum maximum targetMs).Reach Positive s →
      s.Usable ∧ ∀ elapsedMs, 0 < elapsedMs → StepUsable s (s.record elapsedMs)) ↔
    1 ≤ minimum ∧ minimum ≤ initial ∧ initial ≤ maximum := by
  constructor
  · intro h
    obtain ⟨-, hstep⟩ := h _ .init
    refine ⟨?_, ?_, ?_⟩
    · by_contra hone
      obtain rfl : minimum = 0 := by omega
      obtain ⟨s, hs, hzero⟩ := exists_reach_zero htarget (.init (M := machine initial 0 maximum targetMs))
        fun ema hema => by cases hema
      exact absurd (h s hs).1.pos (by omega)
    · by_contra hlower
      have hslow : targetMs / (3 / 5) < 2 * targetMs := by
        rw [div_lt_iff₀ (by norm_num)]
        linarith
      have hshrunk := (hstep (2 * targetMs) (by linarith)).slow (2 * targetMs) (record_params ..).2.2.2 hslow
      have hpos : 0 < (new initial minimum maximum targetMs).nextEma (2 * targetMs) := mul_pos two_pos htarget
      change ((new initial minimum maximum targetMs).record (2 * targetMs)).current ≤ initial at hshrunk
      rw [record_of_slow hpos hslow] at hshrunk
      change max _ minimum ≤ initial at hshrunk
      omega
    · by_contra hupper
      have hfast : targetMs / 2 < targetMs / (3 / 2) := by
        rw [div_lt_div_iff₀ (by norm_num) (by norm_num)]
        linarith
      have hgrown := (hstep (targetMs / 2) (by linarith)).fast (targetMs / 2) (record_params ..).2.2.2 hfast
      have hpos : 0 < (new initial minimum maximum targetMs).nextEma (targetMs / 2) := by
        change 0 < targetMs / 2
        linarith
      change initial ≤ ((new initial minimum maximum targetMs).record (targetMs / 2)).current at hgrown
      rw [record_of_fast hpos hfast] at hgrown
      change initial ≤ min _ maximum at hgrown
      omega
  · rintro ⟨hone, hlower, hupper⟩ s hs
    have hbounded := bounded_of_reach hone hlower hupper hs
    exact ⟨usable_of_pos (hbounded.one_le.trans hbounded.lower),
      fun elapsedMs helapsed => hbounded.stepUsable helapsed⟩

theorem usable_default : ((new 524288 65536 4194304 800).record 100).current = 786432 ∧
    ((new 524288 65536 4194304 800).record 100).Usable := by
  have hreach : (machine 524288 65536 4194304 800).Reach Positive
      ((new 524288 65536 4194304 800).record 100) := by
    refine .step (l := 100) .init ?_ rfl
    change (0 : ℚ) < 100
    norm_num
  have husable := (usable_iff (by decide) (by decide) (by norm_num)).mpr (by decide) _ hreach
  exact ⟨by decide +kernel, husable.1⟩

/-- A slow call leaves nothing of the least size. -/
theorem not_usable_zero : ∃ s, (machine 1 0 1 800).Reach Positive s ∧ ¬ s.Usable := by
  have hreach : (machine 1 0 1 800).Reach Positive ((new 1 0 1 800).record 1600) := by
    refine .step (l := 1600) .init ?_ rfl
    change (0 : ℚ) < 1600
    norm_num
  have hzero : ((new 1 0 1 800).record 1600).current = 0 := by decide +kernel
  refine ⟨_, hreach, fun h => ?_⟩
  have hpos := h.pos
  rw [hzero] at hpos
  exact absurd hpos (by decide)

end Runs

end AdaptiveChunkSizer

end ProxySplit
