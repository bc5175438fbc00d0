import Mathlib.Algebra.Order.Archimedean.Basic
import Mathlib.Data.List.Induction
import Mathlib.Tactic.Linarith
import Mathlib.Tactic.Ring

universe u

namespace ProxySplit.Lib

variable {K : Type u} [Field K]

def smooth (a e : K) (xs : List K) : K := xs.foldl (fun e x => a * x + (1 - a) * e) e

variable {a e lo hi b : K} {xs : List K}

@[simp] theorem smooth_nil (a e : K) : smooth a e [] = e := rfl

theorem smooth_concat (a e x : K) (xs : List K) :
    smooth a e (xs ++ [x]) = a * x + (1 - a) * smooth a e xs := by
  rw [smooth, List.foldl_concat, smooth]

theorem smooth_neg (a e : K) (xs : List K) : smooth a (-e) (xs.map (-·)) = -smooth a e xs := by
  induction xs generalizing e with
  | nil => rfl
  | cons x xs ih =>
    have hstep : a * -x + (1 - a) * -e = -(a * x + (1 - a) * e) := by ring
    rw [List.map_cons, smooth, List.foldl_cons, hstep]
    exact ih _

variable [LinearOrder K] [IsStrictOrderedRing K]

theorem smooth_le (ha : 0 ≤ a) (ha' : a ≤ 1) (h : ∀ x ∈ xs, x ≤ hi) :
    smooth a e xs ≤ hi + (1 - a) ^ xs.length * (e - hi) := by
  induction xs using List.reverseRecOn with
  | nil => simp
  | append_singleton xs x ih =>
    obtain ⟨hxs, hx⟩ := List.forall_mem_append.mp h
    have hx : x ≤ hi := hx x List.mem_cons_self
    rw [smooth_concat, List.length_append, List.length_singleton, pow_succ]
    calc
      a * x + (1 - a) * smooth a e xs ≤ a * hi + (1 - a) * (hi + (1 - a) ^ xs.length * (e - hi)) := by
        refine add_le_add (mul_le_mul_of_nonneg_left hx ha) ?_
        exact mul_le_mul_of_nonneg_left (ih hxs) (sub_nonneg.mpr ha')
      _ = hi + (1 - a) ^ xs.length * (1 - a) * (e - hi) := by ring

theorem smooth_le_of_le (ha : 0 ≤ a) (ha' : a ≤ 1) (he : e ≤ hi) (h : ∀ x ∈ xs, x ≤ hi) :
    smooth a e xs ≤ hi := by
  refine (smooth_le ha ha' h).trans (add_le_of_nonpos_right ?_)
  exact mul_nonpos_of_nonneg_of_nonpos (pow_nonneg (sub_nonneg.mpr ha') _) (sub_nonpos.mpr he)

theorem le_smooth_of_le (ha : 0 ≤ a) (ha' : a ≤ 1) (he : lo ≤ e) (h : ∀ x ∈ xs, lo ≤ x) :
    lo ≤ smooth a e xs := by
  have hneg : smooth a (-e) (xs.map (-·)) ≤ -lo := by
    refine smooth_le_of_le ha ha' (neg_le_neg he) fun y hy => ?_
    obtain ⟨x, hx, rfl⟩ := List.mem_map.mp hy
    exact neg_le_neg (h x hx)
  rw [smooth_neg] at hneg
  exact neg_le_neg_iff.mp hneg

variable [Archimedean K]

/-- Values below `b` bring the average below `b` in a time that depends only on where it stands. -/
theorem exists_smooth_lt (ha : 0 < a) (ha' : a ≤ 1) (hb : hi < b) (e : K) : ∃ n, ∀ xs : List K,
    n ≤ xs.length → (∀ x ∈ xs, x ≤ hi) → smooth a e xs < b := by
  have hbase : 0 ≤ 1 - a := sub_nonneg.mpr ha'
  rcases le_or_gt e hi with hle | hlt
  · exact ⟨0, fun xs _ hxs => (smooth_le_of_le ha.le ha' hle hxs).trans_lt hb⟩
  · have hgap : 0 < (b - hi) / (e - hi) := div_pos (sub_pos.mpr hb) (sub_pos.mpr hlt)
    obtain ⟨n, hn⟩ := exists_pow_lt_of_lt_one hgap (sub_lt_self 1 ha)
    refine ⟨n, fun xs hlen hxs => (smooth_le ha.le ha' hxs).trans_lt ?_⟩
    have hpow : (1 - a) ^ xs.length ≤ (1 - a) ^ n := pow_le_pow_of_le_one hbase (sub_le_self 1 ha.le) hlen
    have := (lt_div_iff₀ (sub_pos.mpr hlt)).mp (hpow.trans_lt hn)
    linarith

theorem exists_lt_smooth (ha : 0 < a) (ha' : a ≤ 1) (hb : b < lo) (e : K) : ∃ n, ∀ xs : List K,
    n ≤ xs.length → (∀ x ∈ xs, lo ≤ x) → b < smooth a e xs := by
  obtain ⟨n, hn⟩ := exists_smooth_lt ha ha' (neg_lt_neg hb) (-e)
  refine ⟨n, fun xs hlen hxs => ?_⟩
  have hneg := hn (xs.map (-·)) (by rwa [List.length_map]) fun y hy => ?_
  · rw [smooth_neg] at hneg
    exact neg_lt_neg_iff.mp hneg
  · obtain ⟨x, hx, rfl⟩ := List.mem_map.mp hy
    exact neg_le_neg (hxs x hx)

end ProxySplit.Lib
