import Mathlib.Data.Int.Log
import Mathlib.Data.Rat.Floor
import Mathlib.Algebra.Order.Field.Rat
import Mathlib.Algebra.Group.Int.Even
import Mathlib.Tactic.Linarith

namespace ProxySplit.Lib

/-- The nearest integer, of two the even one. -/
def nearestEven (x : ℚ) : ℤ :=
  if 2 * Int.fract x < 1 ∨ 2 * Int.fract x = 1 ∧ Even ⌊x⌋ then ⌊x⌋ else ⌊x⌋ + 1

theorem nearestEven_intCast (n : ℤ) : nearestEven n = n := by simp [nearestEven]

/-- Numbers of so many binary digits, the last of which is not below a place. -/
structure BinaryFormat where
  precision : ℕ
  least : ℤ

namespace BinaryFormat

variable {F : BinaryFormat} {x : ℚ} {n : ℕ}

def place (F : BinaryFormat) (x : ℚ) : ℤ := max F.least (Int.log 2 |x| + 1 - F.precision)

def round (F : BinaryFormat) (x : ℚ) : ℚ := nearestEven (x / 2 ^ F.place x) * 2 ^ F.place x

def Represents (F : BinaryFormat) (x : ℚ) : Prop :=
  ∃ m e : ℤ, |m| < 2 ^ F.precision ∧ F.least ≤ e ∧ x = m * 2 ^ e

theorem abs_lt_of_place (F : BinaryFormat) (x : ℚ) : |x| < 2 ^ (F.precision + F.place x) := by
  have hlog : |x| < 2 ^ (Int.log 2 |x| + 1) := Int.lt_zpow_succ_log_self Nat.one_lt_two |x|
  have hplace : Int.log 2 |x| + 1 - F.precision ≤ F.place x := le_max_right _ _
  exact hlog.trans_le (zpow_le_zpow_right₀ one_le_two (by omega))

theorem place_le {m e : ℤ} (hm : |m| < 2 ^ F.precision) (he : F.least ≤ e) (hx : x = m * 2 ^ e)
    (hne : x ≠ 0) : F.place x ≤ e := by
  have habs : |x| < ((2 : ℕ) : ℚ) ^ (F.precision + e : ℤ) := by
    have hm' : |(m : ℚ)| < 2 ^ F.precision := by exact_mod_cast hm
    have hpos : (0 : ℚ) < 2 ^ e := zpow_pos two_pos e
    rw [hx, abs_mul, abs_of_pos hpos, Nat.cast_two, zpow_add₀ two_ne_zero, zpow_natCast]
    exact mul_lt_mul_of_pos_right hm' hpos
  have hlog : Int.log 2 |x| < F.precision + e :=
    (Int.lt_zpow_iff_log_lt Nat.one_lt_two (abs_pos.mpr hne)).mp habs
  exact max_le he (by omega)

theorem round_eq_self_iff : F.round x = x ↔ F.Represents x := by
  have hpos : (0 : ℚ) < 2 ^ F.place x := zpow_pos two_pos _
  constructor
  · intro h
    refine ⟨nearestEven (x / 2 ^ F.place x), F.place x, ?_, le_max_left _ _, h.symm⟩
    have hlt := F.abs_lt_of_place x
    rw [zpow_add₀ two_ne_zero, zpow_natCast] at hlt
    nth_rewrite 1 [← h] at hlt
    rw [round, abs_mul, abs_of_pos hpos] at hlt
    exact_mod_cast lt_of_mul_lt_mul_right hlt hpos.le
  · rintro ⟨m, e, hm, he, hx⟩
    rcases eq_or_ne x 0 with rfl | hne
    · simp [round, nearestEven]
    have hle := place_le hm he hx hne
    -- The digits below the last place are zeros.
    have hint : x / 2 ^ F.place x = ((m * 2 ^ (e - F.place x).toNat : ℤ) : ℚ) := by
      rw [div_eq_iff hpos.ne']
      push_cast
      rw [← zpow_natCast, Int.toNat_of_nonneg (sub_nonneg.mpr hle), mul_assoc, ← zpow_add₀ two_ne_zero,
        sub_add_cancel, hx]
    rw [round, hint, nearestEven_intCast, ← hint, div_mul_cancel₀ _ hpos.ne']

theorem represents_natCast_iff (hleast : F.least ≤ 0) :
    F.Represents n ↔ ∃ m k, m < 2 ^ F.precision ∧ n = m * 2 ^ k := by
  constructor
  · rintro ⟨m, e, hm, he, hn⟩
    have hm0 : 0 ≤ m := by
      have h : (0 : ℚ) ≤ m * 2 ^ e := hn ▸ Nat.cast_nonneg n
      exact_mod_cast nonneg_of_mul_nonneg_left h (zpow_pos two_pos e)
    obtain ⟨m, rfl⟩ := Int.eq_ofNat_of_zero_le hm0
    rw [abs_of_nonneg hm0] at hm
    rcases le_total 0 e with h | h
    · obtain ⟨k, rfl⟩ := Int.eq_ofNat_of_zero_le h
      exact ⟨m, k, by exact_mod_cast hm, by exact_mod_cast hn⟩
    · refine ⟨n, 0, ?_, by simp⟩
      have hle : (n : ℚ) ≤ m := by
        rw [hn]
        exact mul_le_of_le_one_right (Nat.cast_nonneg m) (zpow_le_one_of_nonpos₀ one_le_two h)
      exact lt_of_le_of_lt (by exact_mod_cast hle) (by exact_mod_cast hm)
  · rintro ⟨m, k, hm, rfl⟩
    exact ⟨m, k, by exact_mod_cast hm, hleast.trans (Nat.cast_nonneg k), by push_cast; rfl⟩

end BinaryFormat

end ProxySplit.Lib
