import ProxySplit.SessionPool
import Mathlib.Algebra.Order.BigOperators.Group.List
import Mathlib.Algebra.Order.Field.Basic
import Mathlib.Algebra.Order.Ring.Rat
import Mathlib.Tactic.Linarith

namespace ProxySplit

open Lib

/-- What one pick draws: `random.random()`, and the index `random.choice` takes. -/
structure Draw where
  random : ℚ
  choice : Nat
  unit : 0 ≤ random ∧ random < 1

namespace PoolView

def redraw (v : PoolView) (d : Draw) : PoolView := { v with random := d.random, choice := d.choice }

/-- What a pick of `distribute_proxies` can come to. -/
def offered (v : PoolView) (pool : Option String) (excludeSet : Finset Url) (best : Option Url) :
    List Url :=
  if v.candidates pool excludeSet = [] then best.toList else v.candidates pool excludeSet

variable {v : PoolView} {pool : Option String} {excludeSet : Finset Url} {weighted : Bool}
  {best : Option Url} {p : Url}

theorem pickProxy_eq_none_iff : v.pickProxy pool excludeSet none weighted = none ↔
    v.candidates pool excludeSet = [] := by
  cases weighted with
  | true => exact scoreChoice_eq_none
  | false => exact randomChoice_eq_none

theorem mem_candidates_of_pickProxy (h : v.pickProxy pool excludeSet none weighted = some p) :
    p ∈ v.candidates pool excludeSet := by
  cases weighted with
  | true => exact mem_of_scoreChoice h
  | false => exact mem_of_randomChoice h

theorem exists_reach {l : List (Url × ℚ)} (hpos : ∀ e ∈ l, 0 < e.2) {c : ℚ}
    (hp : p ∈ l.map Prod.fst) :
    ∃ t, c < t ∧ t < c + (l.map Prod.snd).sum ∧ reach t c l = some p := by
  induction l generalizing c with
  | nil => cases hp
  | cons e rest ih =>
    obtain ⟨q, w⟩ := e
    have hw : 0 < w := hpos (q, w) (.head _)
    have hrest : 0 ≤ (rest.map Prod.snd).sum := by
      apply List.sum_nonneg
      intro x hx
      obtain ⟨e, he, rfl⟩ := List.mem_map.mp hx
      exact (hpos e (.tail _ he)).le
    rw [List.map_cons, List.sum_cons]
    rcases List.mem_cons.mp hp with heq | hmem
    · refine ⟨c + w / 2, by linarith, by linarith, ?_⟩
      rw [reach, if_pos (by linarith), heq]
    · obtain ⟨t, hlow, hhigh, hreach⟩ := ih (fun e he => hpos e (.tail _ he)) (c := c + w) hmem
      refine ⟨t, by linarith, by linarith, ?_⟩
      rw [reach, if_neg (by linarith)]
      exact hreach

theorem weight_pos (v : PoolView) (p : Url) : 0 < v.weight p :=
  lt_of_lt_of_le (by norm_num) (le_max_left _ _)

theorem scoreChoice_of_reach (h : reach (v.random * ((v.candidates pool excludeSet).map v.weight).sum) 0
    ((v.candidates pool excludeSet).zip ((v.candidates pool excludeSet).map v.weight)) = some p) :
    v.scoreChoice pool excludeSet = some p := by
  simp only [scoreChoice, h]

theorem exists_draw (hp : p ∈ v.candidates pool excludeSet) :
    ∃ d, (v.redraw d).pickProxy pool excludeSet none weighted = some p := by
  have hne := List.ne_nil_of_mem hp
  cases weighted with
  | true =>
    have hzip : ((v.candidates pool excludeSet).zip
        ((v.candidates pool excludeSet).map v.weight)).map Prod.fst =
          v.candidates pool excludeSet := List.map_fst_zip (by simp)
    have hsnd : ((v.candidates pool excludeSet).zip
        ((v.candidates pool excludeSet).map v.weight)).map Prod.snd =
          (v.candidates pool excludeSet).map v.weight := List.map_snd_zip (by simp)
    have hpos : ∀ e ∈ (v.candidates pool excludeSet).zip
        ((v.candidates pool excludeSet).map v.weight), 0 < e.2 := by
      intro e he
      obtain ⟨q, -, hq⟩ := List.mem_map.mp (List.of_mem_zip he).2
      exact hq ▸ v.weight_pos q
    obtain ⟨t, hlow, hhigh, hreach⟩ := exists_reach (c := 0) hpos (hzip.symm ▸ hp)
    rw [hsnd, zero_add] at hhigh
    have hsum : 0 < ((v.candidates pool excludeSet).map v.weight).sum := hlow.trans hhigh
    refine ⟨⟨t / ((v.candidates pool excludeSet).map v.weight).sum, 0, ?_, ?_⟩, ?_⟩
    · exact div_nonneg hlow.le hsum.le
    · exact (div_lt_one hsum).mpr hhigh
    · refine scoreChoice_of_reach ?_
      change reach (t / _ * ((v.candidates pool excludeSet).map v.weight).sum) 0
        ((v.candidates pool excludeSet).zip ((v.candidates pool excludeSet).map v.weight)) = some p
      rw [div_mul_cancel₀ _ hsum.ne', hreach]
  | false =>
    obtain ⟨i, hi, hget⟩ := List.getElem_of_mem hp
    refine ⟨⟨0, i, le_rfl, by norm_num⟩, ?_⟩
    change (v.candidates pool excludeSet)[i % (v.candidates pool excludeSet).length]? = some p
    rw [Nat.mod_eq_of_lt hi, List.getElem?_eq_getElem hi, hget]

/-- A pick or its fallback comes to `p` with some draw exactly if `p` is offered. -/
theorem mem_offered_iff : p ∈ v.offered pool excludeSet best ↔
    ∃ d, ((v.redraw d).pickProxy pool excludeSet none weighted).or best = some p := by
  unfold offered
  split
  · next hnone =>
    have hpick : ∀ d, (v.redraw d).pickProxy pool excludeSet none weighted = none :=
      fun d => pickProxy_eq_none_iff.mpr hnone
    simp only [hpick, Option.none_or, Option.mem_toList]
    constructor
    · exact fun h => ⟨⟨0, 0, le_rfl, by norm_num⟩, h⟩
    · exact fun ⟨_, h⟩ => h
  · next hsome =>
    constructor
    · intro h
      obtain ⟨d, hd⟩ : ∃ d, (v.redraw d).pickProxy pool excludeSet none weighted = some p :=
        exists_draw h
      exact ⟨d, by rw [hd]; rfl⟩
    · rintro ⟨d, hd⟩
      cases hpick : (v.redraw d).pickProxy pool excludeSet none weighted with
      | none => exact absurd (pickProxy_eq_none_iff.mp hpick) hsome
      | some q =>
        rw [hpick] at hd
        cases hd
        have hmem : p ∈ (v.redraw d).candidates pool excludeSet := mem_candidates_of_pickProxy hpick
        exact hmem

theorem offered_ne_nil (h : best.isSome) : v.offered pool excludeSet best ≠ [] := by
  obtain ⟨b, rfl⟩ := Option.isSome_iff_exists.mp h
  unfold offered
  split
  · exact List.cons_ne_nil _ _
  · assumption

/-- `rest` can be assigned after `assigned`: every entry is offered to its pick. -/
def Assigns (pool : Option String) (win : Int) (best : Option Url) :
    (views : Nat → PoolView) → (assigned rest : List Url) → Prop
  | _, _, [] => True
  | views, assigned, q :: rest =>
    q ∈ (views 0).offered pool (lastOf assigned win).toFinset best ∧
      Assigns pool win best (fun k => views (k + 1)) (assigned ++ [q]) rest

section Loop

variable {win : Int} {views : Nat → PoolView} {assigned rest : List Url}

theorem assigns_append {rest' : List Url} : Assigns pool win best views assigned (rest ++ rest') ↔
    Assigns pool win best views assigned rest ∧
      Assigns pool win best (fun k => views (k + rest.length)) (assigned ++ rest) rest' := by
  induction rest generalizing views assigned with
  | nil => simp [Assigns]
  | cons q rest ih =>
    simp only [List.cons_append, Assigns, ih, and_assoc, List.append_assoc, List.length_cons,
      List.nil_append]
    rfl

theorem assigns_iff : Assigns pool win best views assigned rest ↔ ∀ k q, rest[k]? = some q →
    q ∈ (views k).offered pool (lastOf (assigned ++ rest.take k) win).toFinset best := by
  induction rest generalizing views assigned with
  | nil => simp [Assigns]
  | cons q rest ih =>
    rw [Assigns, ih]
    constructor
    · rintro ⟨hq, hrest⟩ k q' hk
      cases k with
      | zero =>
        cases hk
        simpa using hq
      | succ k => simpa using hrest k q' hk
    · intro h
      exact ⟨by simpa using h 0 q rfl, fun k q' hk => by simpa using h (k + 1) q' hk⟩

theorem exists_assigns (hbest : best.isSome) (n : Nat) :
    ∃ rest, rest.length = n ∧ Assigns pool win best views assigned rest := by
  induction n generalizing views assigned with
  | zero => exact ⟨[], rfl, trivial⟩
  | succ n ih =>
    obtain ⟨q, hq⟩ : ∃ q, q ∈ (views 0).offered pool (lastOf assigned win).toFinset best :=
      List.exists_mem_of_ne_nil _ (offered_ne_nil hbest)
    obtain ⟨rest, hlen, hrest⟩ : ∃ rest, rest.length = n ∧
      Assigns pool win best (fun k => views (k + 1)) (assigned ++ [q]) rest := ih
    exact ⟨q :: rest, by rw [List.length_cons, hlen], hq, hrest⟩

theorem assigns_distributeLoop (hbest : best.isSome) (draws : Nat → Draw) (left : Nat) :
    ∃ rest, distributeLoop pool weighted win best left (fun k => (views k).redraw (draws k))
      assigned = assigned ++ rest ∧ rest.length = left ∧
        Assigns pool win best views assigned rest := by
  induction left generalizing views assigned draws with
  | zero => exact ⟨[], (List.append_nil _).symm, rfl, trivial⟩
  | succ left ih =>
    obtain ⟨q, hq⟩ : ∃ q, (((views 0).redraw (draws 0)).pickProxy pool
        (lastOf assigned win).toFinset none weighted).or best = some q := by
      rw [← Option.isSome_iff_exists, Option.isSome_or, hbest, Bool.or_true]
    obtain ⟨rest, hloop, hlen, hrest⟩ : ∃ rest, distributeLoop pool weighted win best left
        (fun k => (views (k + 1)).redraw (draws (k + 1))) (assigned ++ [q]) =
          assigned ++ [q] ++ rest ∧ rest.length = left ∧
            Assigns pool win best (fun k => views (k + 1)) (assigned ++ [q]) rest :=
      ih fun k => draws (k + 1)
    refine ⟨q :: rest, ?_, by rw [List.length_cons, hlen], mem_offered_iff.mpr ⟨_, hq⟩, hrest⟩
    rw [distributeLoop, hq, Option.toList_some]
    simpa using hloop

theorem exists_draws (h : Assigns pool win best views assigned rest) :
    ∃ draws : Nat → Draw, distributeLoop pool weighted win best rest.length
      (fun k => (views k).redraw (draws k)) assigned = assigned ++ rest := by
  induction rest generalizing views assigned with
  | nil => exact ⟨fun _ => ⟨0, 0, le_rfl, by norm_num⟩, (List.append_nil _).symm⟩
  | cons q rest ih =>
    obtain ⟨hq, hrest⟩ := h
    obtain ⟨d, hd⟩ : ∃ d, (((views 0).redraw d).pickProxy pool (lastOf assigned win).toFinset none
      weighted).or best = some q := mem_offered_iff.mp hq
    obtain ⟨draws, hdraws⟩ := ih hrest
    refine ⟨fun k => k.casesOn d draws, ?_⟩
    change distributeLoop pool weighted win best rest.length
      (fun k => (views (k + 1)).redraw (draws k)) (assigned ++ ((((views 0).redraw d).pickProxy pool
        (lastOf assigned win).toFinset none weighted).or best).toList) = _
    rw [hd]
    simpa using hdraws

theorem assigns_replicate {n : Nat} (h : ∀ k < n,
    p ∈ (views k).offered pool (lastOf (List.replicate k p) win).toFinset best) :
    Assigns pool win best views [] (List.replicate n p) := by
  induction n with
  | zero => trivial
  | succ n ih =>
    rw [List.replicate_succ', assigns_append]
    refine ⟨ih fun k hk => h k (Nat.lt_succ_of_lt hk), ?_, trivial⟩
    simpa using h n (Nat.lt_succ_self n)

theorem exists_assigns_turn (hbest : best.isSome) {k n : Nat} (hlt : k < n) {q : Url}
    (hp : ∀ j < k, p ∈ (views j).offered pool (lastOf (List.replicate j p) win).toFinset best)
    (hq : q ∈ (views k).offered pool (lastOf (List.replicate k p) win).toFinset best) :
    ∃ bs, (List.replicate k p ++ q :: bs).length = n ∧
      Assigns pool win best views [] (List.replicate k p ++ q :: bs) := by
  obtain ⟨bs, hlen, hbs⟩ : ∃ bs, bs.length = n - (k + 1) ∧
      Assigns pool win best (fun i => views (i + 1 + k)) (List.replicate k p ++ [q]) bs :=
    exists_assigns hbest _
  refine ⟨bs, ?_, assigns_append.mpr ⟨assigns_replicate hp, ?_, ?_⟩⟩
  · rw [List.length_append, List.length_replicate, List.length_cons, hlen]
    omega
  · simpa using hq
  · simpa using hbs

end Loop

section Distribute

variable {pin : Option String} {win : Int} {views : Nat → PoolView} {n : Nat}

theorem distributeProxies_of_two (hpin : truthy pin = none)
    (htwo : 2 ≤ ((views 0).available pool).length) :
    distributeProxies views n pool pin weighted win =
      distributeLoop pool weighted (min (((views 0).available pool).length - 1) win)
        ((views 0).bestAvailable ((views 0).available pool)) n (fun k => views (k + 1)) [] := by
  simp only [distributeProxies, hpin]
  split
  · next hnil => simp [hnil] at htwo
  · next hone => simp [hone] at htwo
  · rfl

theorem forall_draws_iff (hpin : truthy pin = none) (htwo : 2 ≤ ((views 0).available pool).length)
    {P : List Url → Prop} :
    (∀ draws : Nat → Draw, P (distributeProxies (fun k => (views k).redraw (draws k)) n pool pin
      weighted win)) ↔
    ∀ rest, rest.length = n → Assigns pool (min (((views 0).available pool).length - 1) win)
      ((views 0).bestAvailable ((views 0).available pool)) (fun k => views (k + 1)) [] rest →
        P rest := by
  have hbest : ((views 0).bestAvailable ((views 0).available pool)).isSome := by
    apply isSome_bestAvailable
    rintro hnil
    simp [hnil] at htwo
  have hloop : ∀ draws : Nat → Draw, distributeProxies (fun k => (views k).redraw (draws k)) n pool
      pin weighted win = distributeLoop pool weighted (min (((views 0).available pool).length - 1) win)
        ((views 0).bestAvailable ((views 0).available pool)) n
          (fun k => (views (k + 1)).redraw (draws (k + 1))) [] :=
    fun draws => distributeProxies_of_two hpin htwo
  generalize min _ win = win' at hloop ⊢
  generalize (views 0).bestAvailable _ = best at hbest hloop ⊢
  constructor
  · rintro h rest rfl hrest
    obtain ⟨draws, hdraws⟩ : ∃ draws : Nat → Draw, distributeLoop pool weighted win' best rest.length
      (fun k => (views (k + 1)).redraw (draws k)) [] = [] ++ rest := exists_draws hrest
    have hP := h fun k => draws (k - 1)
    rw [hloop] at hP
    simp only [Nat.add_sub_cancel, hdraws, List.nil_append] at hP
    exact hP
  · intro h draws
    obtain ⟨rest, hrest, hlen, hassigns⟩ : ∃ rest, distributeLoop pool weighted win' best n
        (fun k => (views (k + 1)).redraw (draws (k + 1))) [] = [] ++ rest ∧ rest.length = n ∧
          Assigns pool win' best (fun k => views (k + 1)) [] rest :=
      assigns_distributeLoop hbest (fun k => draws (k + 1)) n
    rw [hloop, hrest]
    exact h rest hlen hassigns

theorem exists_draws_iff (hpin : truthy pin = none) (htwo : 2 ≤ ((views 0).available pool).length)
    {l : List Url} :
    (∃ draws : Nat → Draw, distributeProxies (fun k => (views k).redraw (draws k)) n pool pin weighted
      win = l) ↔
    l.length = n ∧ Assigns pool (min (((views 0).available pool).length - 1) win)
      ((views 0).bestAvailable ((views 0).available pool)) (fun k => views (k + 1)) [] l := by
  rw [← not_iff_not, not_exists]
  refine (forall_draws_iff hpin htwo (P := (· ≠ l))).trans ?_
  constructor
  · exact fun h hl => h l hl.1 hl.2 rfl
  · rintro h rest hlen hrest rfl
    exact h ⟨hlen, hrest⟩

theorem card_distributeProxies_le_one (hpin : truthy pin = none)
    (hone : ¬ 2 ≤ ((views 0).available pool).length) :
    (distributeProxies views n pool pin weighted win).toFinset.card ≤ 1 := by
  have hreplicate : ∀ q : Url, (List.replicate n q).toFinset.card ≤ 1 := by
    intro q
    refine Finset.card_le_one.mpr fun a ha b hb => ?_
    rw [List.eq_of_mem_replicate (List.mem_toFinset.mp ha),
      List.eq_of_mem_replicate (List.mem_toFinset.mp hb)]
  simp only [distributeProxies, hpin]
  split
  · exact Nat.zero_le _
  · exact hreplicate _
  · next available hnil hsingle =>
    rcases hav : (views 0).available pool with _ | ⟨q, _ | ⟨q', rest⟩⟩
    · exact absurd hav hnil
    · exact absurd hav (hsingle q)
    · simp [hav] at hone

end Distribute

end PoolView

end ProxySplit
