import ProxySplit.Lib.Machine
import Mathlib.Algebra.Order.Field.Rat
import Mathlib.Tactic.Linarith
import Mathlib.Tactic.NormNum

namespace ProxySplit

open Lib

structure TokenBucket where
  rps : ℚ
  tokens : ℚ
  last : ℚ
  deriving DecidableEq

namespace TokenBucket

def new (rps now : ℚ) : TokenBucket := ⟨rps, if 0 < rps then rps else 0, now⟩

/-- `acquire` of a caller that gets the lock at `now`, with the time at which it returns.  Nothing but
the sleep takes time. -/
def acquire (b : TokenBucket) (now : ℚ) : TokenBucket × ℚ :=
  if b.rps ≤ 0 then (b, now)
  else
    let tokens := min b.rps (b.tokens + (now - b.last) * b.rps)
    if tokens < 1 then ({ b with tokens := 0, last := now }, now + (1 - tokens) / b.rps)
    else ({ b with tokens := tokens - 1, last := now }, now)

end TokenBucket

structure Limiter where
  bucket : TokenBucket
  free : ℚ
  grants : List ℚ
  deriving DecidableEq

namespace Limiter

def step (s : Limiter) (now : ℚ) : Option Limiter :=
  if s.free ≤ now then
    let (bucket, granted) := s.bucket.acquire now
    some ⟨bucket, granted, s.grants ++ [granted]⟩
  else none

def machine (rps start : ℚ) : Machine Limiter ℚ := ⟨⟨.new rps start, start, []⟩, step⟩

/-- How many calls returned from `t` on and not after `u`. -/
def grantedIn (s : Limiter) (t u : ℚ) : Nat := (s.grants.filter fun g => t ≤ g ∧ g ≤ u).length

def RateHeld (s : Limiter) : Prop :=
  ∀ t T, 0 ≤ T → (s.grantedIn t (t + T) : ℚ) ≤ s.bucket.rps * T + max 1 s.bucket.rps

/-- The last caller did not sleep, or it returned a second ago, so that the bucket is full anyway. -/
def CreditsOnce (s : Limiter) (now : ℚ) : Prop := s.bucket.last = s.free ∨ s.free + 1 ≤ now

structure Inv (rps : ℚ) (s : Limiter) : Prop where
  rate : s.bucket.rps = rps
  last_le : s.bucket.last ≤ s.free
  tokens_le : s.bucket.tokens ≤ rps
  slept : s.bucket.last ≠ s.free → s.bucket.tokens = 0
  past : ∀ g ∈ s.grants, g ≤ s.free
  covered : ∀ t ≤ s.free, (s.grantedIn t s.free : ℚ) + s.bucket.tokens ≤
    rps * (s.free - t) + max 1 rps
  held : s.RateHeld

section Grants

variable {s : Limiter} {b : TokenBucket} {g t u : ℚ}

theorem grantedIn_append : (Limiter.mk b g (s.grants ++ [g])).grantedIn t u =
    s.grantedIn t u + if t ≤ g ∧ g ≤ u then 1 else 0 := by
  simp only [grantedIn, List.filter_append, List.length_append]
  by_cases h : t ≤ g ∧ g ≤ u
  · simp [h]
  · simp [h]

theorem grantedIn_of_le {u' : ℚ} (hpast : ∀ g ∈ s.grants, g ≤ u) (hu : u ≤ u') :
    s.grantedIn t u' = s.grantedIn t u := by
  unfold grantedIn
  congr 1
  apply List.filter_congr
  intro g hg
  have hle := hpast g hg
  simp [hle, hle.trans hu]

theorem grantedIn_eq_zero (hpast : ∀ g ∈ s.grants, g < t) : s.grantedIn t u = 0 := by
  simp only [grantedIn, List.length_eq_zero_iff, List.filter_eq_nil_iff, decide_eq_true_eq]
  intro g hg h
  exact absurd h.1 (not_le.mpr (hpast g hg))

end Grants

section Step

variable {rps now : ℚ} {s : Limiter}

/-- What the bucket holds when the next caller looks, if no time is credited twice. -/
theorem Inv.refill (h : s.Inv rps) (hrps : 0 < rps)
    (hok : s.CreditsOnce now) :
    min rps (s.bucket.tokens + (now - s.bucket.last) * rps) ≤
      s.bucket.tokens + (now - s.free) * rps := by
  rcases hok with hlast | hfull
  · rw [hlast]
    exact min_le_right _ _
  · by_cases hlast : s.bucket.last = s.free
    · rw [hlast]
      exact min_le_right _ _
    · rw [h.slept hlast]
      refine (min_le_left _ _).trans ?_
      nlinarith

theorem Inv.covered_grant (h : s.Inv rps) (hrps : 0 < rps) {g tokens : ℚ} (hfree : s.free ≤ g)
    (hpaid : 1 + tokens ≤ s.bucket.tokens + (g - s.free) * rps) (hmax : 1 + tokens ≤ max 1 rps) :
    ∀ t ≤ g, ((s.grantedIn t g + 1 : Nat) : ℚ) + tokens ≤ rps * (g - t) + max 1 rps := by
  intro t ht
  push_cast
  rcases le_or_gt t s.free with hle | hlt
  · have hcov := h.covered t hle
    rw [grantedIn_of_le h.past hfree]
    linarith
  · rw [grantedIn_eq_zero fun x hx => (h.past x hx).trans_lt hlt]
    have hpos : 0 ≤ rps * (g - t) := mul_nonneg hrps.le (by linarith)
    push_cast
    linarith

theorem Inv.rateHeld_grant (h : s.Inv rps) (hrps : 0 < rps) {g tokens last : ℚ} (hfree : s.free ≤ g)
    (hpos : 0 ≤ tokens)
    (hcovered : ∀ t ≤ g, ((s.grantedIn t g + 1 : Nat) : ℚ) + tokens ≤ rps * (g - t) + max 1 rps) :
    RateHeld ⟨⟨rps, tokens, last⟩, g, s.grants ++ [g]⟩ := by
  intro t T hT
  rw [grantedIn_append]
  rcases lt_or_ge (t + T) g with hbefore | hafter
  · rw [if_neg fun hin => absurd hin.2 (not_le.mpr hbefore)]
    have hheld := h.held t T hT
    rw [h.rate] at hheld
    simpa using hheld
  · have hpast : ∀ x ∈ s.grants, x ≤ g := fun x hx => (h.past x hx).trans hfree
    rw [grantedIn_of_le hpast hafter]
    rcases le_or_gt t g with hle | hlt
    · rw [if_pos ⟨hle, hafter⟩]
      have hcov := hcovered t hle
      have htime : rps * (g - t) ≤ rps * T := mul_le_mul_of_nonneg_left (by linarith) hrps.le
      linarith
    · rw [if_neg fun hin => absurd hin.1 (not_le.mpr hlt),
        grantedIn_eq_zero fun x hx => (hpast x hx).trans_lt hlt]
      have hone : 1 ≤ max 1 rps := le_max_left _ _
      have htime : 0 ≤ rps * T := mul_nonneg hrps.le hT
      push_cast
      linarith

theorem Inv.grant (h : s.Inv rps) (hrps : 0 < rps) {g tokens last : ℚ} (hfree : s.free ≤ g)
    (hlast : last ≤ g) (hpos : 0 ≤ tokens) (hslept : last ≠ g → tokens = 0)
    (hpaid : 1 + tokens ≤ s.bucket.tokens + (g - s.free) * rps) (hmax : 1 + tokens ≤ max 1 rps)
    (hfull : tokens ≤ rps) : Inv rps ⟨⟨rps, tokens, last⟩, g, s.grants ++ [g]⟩ := by
  have hcovered := h.covered_grant hrps hfree hpaid hmax
  constructor
  case rate => rfl
  case last_le => exact hlast
  case tokens_le => exact hfull
  case slept => exact hslept
  case past =>
    intro x hx
    rcases List.mem_append.mp hx with hx | hx
    · exact (h.past x hx).trans hfree
    · rw [List.mem_singleton.mp hx]
  case covered =>
    intro t ht
    rw [grantedIn_append, if_pos ⟨ht, le_rfl⟩]
    exact hcovered t ht
  case held => exact h.rateHeld_grant hrps hfree hpos hcovered

theorem Inv.step (h : s.Inv rps) (hrps : 0 < rps) {s' : Limiter} (hok : s.CreditsOnce now)
    (hs : s.step now = some s') : s'.Inv rps := by
  unfold Limiter.step at hs
  split at hs
  · next hnow =>
    obtain ⟨⟨r, tokens, last⟩, free, grants⟩ := s
    obtain rfl : r = rps := h.rate
    have hrefill := h.refill hrps hok
    have hcap : min r (tokens + (now - last) * r) ≤ r := min_le_left _ _
    have hmax : r ≤ max 1 r := le_max_right _ _
    have hone : 1 ≤ max 1 r := le_max_left _ _
    simp only [TokenBucket.acquire, not_le.mpr hrps, if_false] at hs
    split at hs
    · next hlow =>
      cases hs
      have hwait : (1 - min r (tokens + (now - last) * r)) / r * r =
          1 - min r (tokens + (now - last) * r) := div_mul_cancel₀ _ hrps.ne'
      have hpos : 0 < (1 - min r (tokens + (now - last) * r)) / r :=
        div_pos (by linarith) hrps
      apply h.grant hrps
      · exact hnow.trans (by linarith)
      · linarith
      · exact le_rfl
      · exact fun _ => rfl
      · linarith
      · linarith
      · exact hrps.le
    · next hhigh =>
      cases hs
      apply h.grant hrps hnow
      · exact le_rfl
      · linarith
      · exact fun hne => absurd rfl hne
      · linarith
      · linarith
      · linarith
  · cases hs

theorem Inv.init {start : ℚ} (hrps : 0 < rps) : (machine rps start).init.Inv rps := by
  have hone : rps ≤ max 1 rps := le_max_right _ _
  have hmax : 0 ≤ max 1 rps := zero_le_one.trans (le_max_left _ _)
  constructor
  case rate => rfl
  case last_le => exact le_rfl
  case tokens_le => simp [machine, TokenBucket.new, hrps]
  case slept => exact fun hne => absurd rfl hne
  case past => exact nofun
  case covered =>
    intro t ht
    have htime : 0 ≤ rps * (start - t) := mul_nonneg hrps.le (sub_nonneg.mpr ht)
    simp only [machine, TokenBucket.new, hrps, if_true, grantedIn, List.filter_nil,
      List.length_nil, Nat.cast_zero]
    linarith
  case held =>
    intro t T hT
    have htime : 0 ≤ rps * T := mul_nonneg hrps.le hT
    simp only [machine, TokenBucket.new, grantedIn, List.filter_nil, List.length_nil,
      Nat.cast_zero]
    linarith

end Step

/-- The rate holds in every run in which no caller that follows a sleeping one comes less than a
second after that one's return. -/
theorem rateHeld_of_reach (rps start : ℚ) (hrps : 0 < rps) (s : Limiter)
    (hs : (machine rps start).Reach CreditsOnce s) : s.RateHeld :=
  (hs.invariant (Inv.init hrps) fun _ _ _ h hok hstep => h.step hrps hok hstep).held

instance (s : Limiter) (now : ℚ) : Decidable (s.CreditsOnce now) :=
  inferInstanceAs (Decidable (_ ∨ _))

theorem rateHeld_of_pause : ∃ s, (machine 1 0).Reach CreditsOnce s ∧ s.grants = [0, 1, 2] ∧
    s.RateHeld := by
  have hrun : ∃ s, (machine 1 0).Reach CreditsOnce s ∧ s.grants = [0, 1, 2] :=
    Machine.exists_reach_if [0, 0, 2] (by decide +kernel)
  obtain ⟨s, hs, hgrants⟩ := hrun
  exact ⟨s, hs, hgrants, rateHeld_of_reach 1 0 one_pos s hs⟩

/-- The second that one caller slept is credited to the next one as well. -/
theorem rate_exceeded_after_sleep :
    ¬ ∀ rps start : ℚ, 0 < rps → ∀ s, (machine rps start).Reachable s → s.RateHeld := by
  intro hall
  obtain ⟨s, hs, hrps, hgrants⟩ := Machine.exists_reachable (M := machine 1 0)
    (P := fun s => s.bucket.rps = 1 ∧ s.grants = [0, 1, 1]) [0, 0, 1] (by decide +kernel)
  have hheld := hall 1 0 one_pos s hs 1 0 le_rfl
  have htwo : s.grantedIn 1 (1 + 0) = 2 := by
    rw [grantedIn, hgrants]
    decide +kernel
  rw [htwo, hrps] at hheld
  norm_num at hheld

end Limiter

end ProxySplit
