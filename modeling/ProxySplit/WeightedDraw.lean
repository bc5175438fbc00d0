import ProxySplit.Drawing
import ProxySplit.Lib.Roulette
import Mathlib.Algebra.BigOperators.Ring.List
import Mathlib.Data.Rat.Floor

namespace ProxySplit.PoolView

open Lib

variable {v : PoolView} {pool : Option String} {excludeSet : Finset Url} {p q : Url}

/-- The score that `score_choice` goes by. -/
def score (v : PoolView) (p : Url) : ℚ := (v.scores.get? p).getD (1 / 2)

/-- The chance that `score_choice` means to give a candidate. -/
def share (v : PoolView) (pool : Option String) (excludeSet : Finset Url) (p : Url) : ℚ :=
  v.weight p / ((v.candidates pool excludeSet).map v.weight).sum

/-- How many of `n` evenly spread values of `random.random()` come to `p`. -/
def draws (v : PoolView) (pool : Option String) (excludeSet : Finset Url) (p : Url) (n : ℕ) : ℕ :=
  ((Finset.range n).filter fun k : ℕ =>
    ({ v with random := (k : ℚ) / n } : PoolView).scoreChoice pool excludeSet = some p).card

def wheel (v : PoolView) (pool : Option String) (excludeSet : Finset Url) : List (Url × ℚ) :=
  (v.candidates pool excludeSet).map fun p => (p, v.weight p)

theorem reach_eq_spin (r c : ℚ) (l : List (Url × ℚ)) : reach r c l = Roulette.spin r c l := by
  induction l generalizing c with
  | nil => rfl
  | cons e l ih =>
    rw [reach, Roulette.spin, ih]

theorem zip_weights (v : PoolView) (l : List Url) :
    l.zip (l.map v.weight) = l.map fun p => (p, v.weight p) := by
  have hzip : (l.map id).zip (l.map v.weight) = l.map fun p => (p, v.weight p) := List.zip_map'
  rwa [List.map_id] at hzip

theorem total_wheel : Roulette.total (v.wheel pool excludeSet) =
    ((v.candidates pool excludeSet).map v.weight).sum := by
  rw [Roulette.total, wheel, List.map_map]
  rfl

theorem wheel_pos : ∀ e ∈ v.wheel pool excludeSet, 0 < e.2 := by
  intro e he
  obtain ⟨q, -, rfl⟩ := List.mem_map.mp he
  exact v.weight_pos q

theorem nodup_candidates (h : v.registry.all.Nodup) : (v.candidates pool excludeSet).Nodup := by
  have havailable : (v.available pool).Nodup := by
    rw [available, urlsForPool]
    split
    · exact h.filter _
    · exact (h.filter _).filter _
  rw [candidates]
  split
  · exact havailable.filter _
  · exact havailable

theorem nodup_wheel (h : v.registry.all.Nodup) : ((v.wheel pool excludeSet).map Prod.fst).Nodup := by
  have hkeys : (v.wheel pool excludeSet).map Prod.fst = (v.candidates pool excludeSet).map id := List.map_map
  rw [hkeys, List.map_id]
  exact nodup_candidates h

theorem scoreChoice_eq_spin (hmem : p ∈ v.candidates pool excludeSet) {r : ℚ} (hr : r ≤ 1) :
    ({ v with random := r } : PoolView).scoreChoice pool excludeSet =
      Roulette.spin (r * Roulette.total (v.wheel pool excludeSet)) 0 (v.wheel pool excludeSet) := by
  have hwheel : v.wheel pool excludeSet ≠ [] := by
    rw [wheel, Ne, List.map_eq_nil_iff]
    exact List.ne_nil_of_mem hmem
  have htotal : 0 ≤ Roulette.total (v.wheel pool excludeSet) := Roulette.total_nonneg wheel_pos
  have hle : r * Roulette.total (v.wheel pool excludeSet) ≤ 0 + Roulette.total (v.wheel pool excludeSet) := by
    rw [zero_add]
    exact mul_le_of_le_one_left htotal hr
  obtain ⟨q, hq⟩ := Option.isSome_iff_exists.mp (Roulette.spin_isSome hwheel wheel_pos hle)
  rw [hq]
  refine scoreChoice_of_reach ?_
  change reach (r * ((v.candidates pool excludeSet).map v.weight).sum) 0
    ((v.candidates pool excludeSet).zip ((v.candidates pool excludeSet).map v.weight)) = some q
  rw [reach_eq_spin, zip_weights, ← total_wheel]
  exact hq

theorem abs_draws_sub_le (h : v.registry.all.Nodup) (hmem : p ∈ v.candidates pool excludeSet) {n : ℕ}
    (hn : 0 < n) : |(v.draws pool excludeSet p n : ℚ) - n * v.share pool excludeSet p| ≤ 1 := by
  have hentry : (p, v.weight p) ∈ v.wheel pool excludeSet := List.mem_map_of_mem hmem
  have hdraws : v.draws pool excludeSet p n = ((Finset.range n).filter fun k : ℕ =>
      Roulette.spin ((k : ℚ) / n * Roulette.total (v.wheel pool excludeSet)) 0
        (v.wheel pool excludeSet) = some p).card := by
    refine congrArg Finset.card (Finset.filter_congr fun k hk => ?_)
    have hle : (k : ℚ) / n ≤ 1 :=
      div_le_one_of_le₀ (Nat.cast_le.mpr (Finset.mem_range.mp hk).le) (Nat.cast_nonneg n)
    rw [scoreChoice_eq_spin hmem hle]
  rw [hdraws, share, ← total_wheel]
  exact Roulette.abs_card_spin_sub_le wheel_pos (nodup_wheel h) hentry hn

theorem sum_weight_pos (hmem : p ∈ v.candidates pool excludeSet) :
    0 < ((v.candidates pool excludeSet).map v.weight).sum := by
  have hnonneg : ∀ x ∈ (v.candidates pool excludeSet).map v.weight, 0 ≤ x := by
    intro x hx
    obtain ⟨q, -, rfl⟩ := List.mem_map.mp hx
    exact (v.weight_pos q).le
  exact (v.weight_pos p).trans_le (List.single_le_sum hnonneg _ (List.mem_map_of_mem hmem))

/-- What `score_choice` does with the value that `random.random()` gives. -/
structure FairDraw (v : PoolView) (pool : Option String) (excludeSet : Finset Url) : Prop where
  sum_share : v.candidates pool excludeSet ≠ [] →
    ((v.candidates pool excludeSet).map (v.share pool excludeSet)).sum = 1
  draws : ∀ p ∈ v.candidates pool excludeSet, ∀ n, 0 < n →
    |(v.draws pool excludeSet p n : ℚ) - n * v.share pool excludeSet p| ≤ 1
  outside : ∀ p ∉ v.candidates pool excludeSet, ∀ n, v.draws pool excludeSet p n = 0
  mono : ∀ p q, v.score p ≤ v.score q → v.share pool excludeSet p ≤ v.share pool excludeSet q
  balanced : ∀ p q, v.score q ≤ 1 → v.share pool excludeSet q ≤ 100 * v.share pool excludeSet p

/-- Each candidate gets the part of the draws that its weight is of all weights, however fine the draws are;
the worst gets a hundredth of what the best gets. -/
theorem fairDraw_of_nodup (h : v.registry.all.Nodup) : v.FairDraw pool excludeSet := by
  have hsum : 0 ≤ ((v.candidates pool excludeSet).map v.weight).sum := by
    rw [← total_wheel]
    exact Roulette.total_nonneg wheel_pos
  constructor
  case sum_share =>
    intro hne
    obtain ⟨p, hmem⟩ := List.exists_mem_of_ne_nil _ hne
    have hshare : v.share pool excludeSet = fun p =>
        v.weight p * (((v.candidates pool excludeSet).map v.weight).sum)⁻¹ := by
      funext p
      exact div_eq_mul_inv _ _
    rw [hshare, List.sum_map_mul_right, mul_inv_cancel₀ (sum_weight_pos hmem).ne']
  case draws => exact fun p hmem n hn => abs_draws_sub_le h hmem hn
  case outside =>
    intro p hout n
    rw [PoolView.draws, Finset.card_eq_zero, Finset.filter_eq_empty_iff]
    intro k _ hk
    exact hout (mem_of_scoreChoice (v := { v with random := (k : ℚ) / n }) hk)
  case mono =>
    intro p q hle
    exact div_le_div_of_nonneg_right (max_le_max le_rfl hle) hsum
  case balanced =>
    intro p q hq
    have hp : 1 / 100 ≤ v.weight p := le_max_left _ _
    have hq : v.weight q ≤ 1 := max_le (by norm_num) hq
    rw [share, share, ← mul_div_assoc]
    refine div_le_div_of_nonneg_right ?_ hsum
    linarith

def unequal : PoolView :=
  { viewOf ["http://10.0.0.1:8080", "http://10.0.0.2:8080"] with
    scores := (Dict.empty.set "http://10.0.0.1:8080" 1).set "http://10.0.0.2:8080" 0 }

theorem unequal_draws : unequal.share none ∅ "http://10.0.0.2:8080" = 1 / 101 ∧
    |(unequal.draws none ∅ "http://10.0.0.2:8080" (2 ^ 53) : ℚ) - 2 ^ 53 / 101| ≤ 1 := by
  have hcandidates : unequal.candidates none ∅ = ["http://10.0.0.1:8080", "http://10.0.0.2:8080"] := by
    decide +kernel
  have hshare : unequal.share none ∅ "http://10.0.0.2:8080" = 1 / 101 := by
    rw [share, hcandidates]
    decide +kernel
  have hfair : unequal.FairDraw none ∅ := fairDraw_of_nodup (by decide +kernel)
  have hdraws := hfair.draws "http://10.0.0.2:8080" (by rw [hcandidates]; simp) (2 ^ 53) (by norm_num)
  refine ⟨hshare, ?_⟩
  rw [hshare, mul_one_div] at hdraws
  exact_mod_cast hdraws

end ProxySplit.PoolView
