import ProxySplit.Lib.Spacing
import ProxySplit.Drawing

namespace ProxySplit.PoolView

open Lib
open scoped List

variable {v : PoolView} {pool : Option String} {excludeSet : Finset Url} {weighted : Bool} {p : Url}

section Exclusion

theorem candidates_of_lt (h : excludeSet.card < (v.available pool).length) :
    v.candidates pool excludeSet = (v.available pool).filter (· ∉ excludeSet) := by
  unfold candidates
  simp only
  split
  · rfl
  · next hnot =>
    have hempty : excludeSet = ∅ := by
      by_contra hne
      exact hnot ⟨Finset.nonempty_iff_ne_empty.mpr hne, h⟩
    simp [hempty]

theorem candidates_of_le (h : (v.available pool).length ≤ excludeSet.card) :
    v.candidates pool excludeSet = v.available pool :=
  if_neg fun hlt => absurd hlt.2 (not_lt.mpr h)

/-- The pick is an available proxy that is not excluded, and there is none if nothing is picked. -/
def PicksOutside (v : PoolView) (pool : Option String) (excludeSet : Finset Url) (weighted : Bool) :
    Prop :=
  (∀ p, v.pickProxy pool excludeSet none weighted = some p → p ∈ v.available pool ∧ p ∉ excludeSet) ∧
    (v.pickProxy pool excludeSet none weighted = none → ∀ p ∈ v.available pool, p ∈ excludeSet)

theorem picksOutside_of_lt (h : excludeSet.card < (v.available pool).length) :
    v.PicksOutside pool excludeSet weighted := by
  have hcand := candidates_of_lt h
  constructor
  · intro p hp
    have hmem := mem_candidates_of_pickProxy hp
    rw [hcand] at hmem
    simpa using hmem
  · intro hnone p hp
    have hnil := pickProxy_eq_none_iff.mp hnone
    rw [hcand, List.filter_eq_nil_iff] at hnil
    simpa using hnil p hp

/-- No draw picks an excluded proxy exactly if the set is smaller than the list of available proxies or
names none of them. -/
theorem picksOutside_iff (v : PoolView) (pool : Option String) (excludeSet : Finset Url)
    (weighted : Bool) : (∀ d, (v.redraw d).PicksOutside pool excludeSet weighted) ↔
      excludeSet.card < (v.available pool).length ∨ ∀ p ∈ v.available pool, p ∉ excludeSet := by
  constructor
  · intro h
    by_contra hnot
    simp only [not_or, not_lt, not_forall, not_not] at hnot
    obtain ⟨hle, p, hp, hex⟩ := hnot
    obtain ⟨d, hd⟩ : ∃ d, (v.redraw d).pickProxy pool excludeSet none weighted = some p :=
      exists_draw (by rwa [candidates_of_le hle])
    exact ((h d).1 p hd).2 hex
  · intro h d
    by_cases hlt : excludeSet.card < (v.available pool).length
    · exact picksOutside_of_lt (v := v.redraw d) hlt
    · have hout := h.resolve_left hlt
      have hcand : (v.redraw d).candidates pool excludeSet = v.available pool :=
        candidates_of_le (v := v.redraw d) (not_lt.mp hlt)
      constructor
      · intro p hp
        have hmem := mem_candidates_of_pickProxy hp
        rw [hcand] at hmem
        exact ⟨hmem, hout p hmem⟩
      · intro hnone p hp
        have hnil := pickProxy_eq_none_iff.mp hnone
        rw [hcand] at hnil
        have hp' : p ∈ v.available pool := hp
        rw [hnil] at hp'
        cases hp'

def twoProxies : PoolView :=
  viewOf ["http://10.0.0.1:8080", "http://10.0.0.2:8080"]

/-- The two proxies of a pool are both excluded, and one of them is picked. -/
theorem excluded_proxy_picked : ¬ ∀ (v : PoolView) (pool : Option String) (excludeSet : Finset Url)
    (weighted : Bool), v.PicksOutside pool excludeSet weighted := by
  intro h
  have hpick := (h twoProxies none {"http://10.0.0.1:8080", "http://10.0.0.2:8080"} true).1
    "http://10.0.0.1:8080" (by decide +kernel)
  exact hpick.2 (by decide)

end Exclusion

/-- Nothing changes while the proxies are picked but the time, and with it the bans that run out, and the
scores. -/
structure Aging (views : Nat → PoolView) : Prop where
  registry : ∀ k, (views (k + 1)).registry = (views k).registry
  proxyTags : ∀ k, (views (k + 1)).proxyTags = (views k).proxyTags
  breaker : ∀ k, (views (k + 1)).breaker = (views k).breaker
  clock : ∀ k, (views k).clock.monotonic ≤ (views (k + 1)).clock.monotonic

section Spacing

variable {views : Nat → PoolView} {win : Int} {best : Option Url}

theorem Aging.available_sublist (h : Aging views) (k : Nat) :
    (views k).available pool <+ (views (k + 1)).available pool := by
  have hblocked : ∀ p, p ∉ (views k).breaker.blockedUrls (views k).clock.monotonic →
      p ∉ (views (k + 1)).breaker.blockedUrls (views (k + 1)).clock.monotonic := by
    intro p hp
    rw [h.breaker k]
    rw [CircuitBreaker.mem_blockedUrls] at hp ⊢
    exact fun hb => hp ⟨hb.1, (h.clock k).trans_lt hb.2⟩
  have hurls : ((views k).registry.all.filter fun p =>
      p ∉ (views k).breaker.blockedUrls (views k).clock.monotonic) <+
        (views (k + 1)).registry.all.filter fun p =>
          p ∉ (views (k + 1)).breaker.blockedUrls (views (k + 1)).clock.monotonic := by
    rw [h.registry k]
    exact List.monotone_filter_right _ fun p hp => by simpa using hblocked p (by simpa using hp)
  unfold available urlsForPool
  split
  · exact hurls
  · rw [h.proxyTags k]
    exact hurls.filter _

theorem Aging.sublist_zero (h : Aging views) (k : Nat) :
    (views 0).available pool <+ (views k).available pool := by
  induction k with
  | zero => exact List.Sublist.refl _
  | succ k ih => exact ih.trans (h.available_sublist k)

theorem nodup_available (hall : v.registry.all.Nodup) : (v.available pool).Nodup := by
  unfold available urlsForPool
  split
  · exact hall.filter _
  · exact (hall.filter _).filter _

theorem Aging.nodup_available (h : Aging views) (hall : (views 0).registry.all.Nodup) (k : Nat) :
    ((views k).available pool).Nodup := by
  have hregistry : (views k).registry = (views 0).registry := by
    induction k with
    | zero => rfl
    | succ k ih => exact (h.registry k).trans ih
  exact PoolView.nodup_available (hregistry ▸ hall)

theorem exists_pick (hnodup : (v.available pool).Nodup) (hne : v.available pool ≠ [])
    (excludeSet : Finset Url) (weighted : Bool) :
    ∃ p, v.pickProxy pool excludeSet none weighted = some p := by
  rw [← Option.ne_none_iff_exists', Ne, pickProxy_eq_none_iff]
  intro hnil
  rcases Nat.lt_or_ge excludeSet.card (v.available pool).length with hlt | hle
  · rw [candidates_of_lt hlt, List.filter_eq_nil_iff] at hnil
    have hsub : (v.available pool).toFinset ⊆ excludeSet := by
      intro p hp
      simpa using hnil p (List.mem_toFinset.mp hp)
    have hcard := Finset.card_le_card hsub
    rw [List.toFinset_card_of_nodup hnodup] at hcard
    omega
  · rw [candidates_of_le hle] at hnil
    exact hne hnil

theorem distributeLoop_picks (hpick : ∀ (k : Nat) (excludeSet : Finset Url),
    ∃ p, (views k).pickProxy pool excludeSet none weighted = some p) (left : Nat)
    (assigned : List Url) : ∃ rest,
      distributeLoop pool weighted win best left views assigned = assigned ++ rest ∧
      rest.length = left ∧ ∀ k q, rest[k]? = some q →
        (views k).pickProxy pool (lastOf (assigned ++ rest.take k) win).toFinset none weighted =
          some q := by
  induction left generalizing views assigned with
  | zero => exact ⟨[], (List.append_nil _).symm, rfl, by simp⟩
  | succ left ih =>
    obtain ⟨q, hq⟩ := hpick 0 (lastOf assigned win).toFinset
    obtain ⟨rest, hloop, hlen, hrest⟩ := ih (fun k => hpick (k + 1)) (assigned ++ [q])
    refine ⟨q :: rest, ?_, by rw [List.length_cons, hlen], ?_⟩
    · rw [distributeLoop, hq, Option.some_or, Option.toList_some, hloop]
      simp
    · intro k q' hk
      cases k with
      | zero =>
        cases hk
        simpa using hq
      | succ k => simpa using hrest k q' hk

theorem lastOf_zero (assigned : List Url) : lastOf assigned 0 = assigned := by simp [lastOf]

theorem lastOf_natCast {w : Nat} (hw : 0 < w) (assigned : List Url) :
    lastOf assigned w = assigned.rtake w := by
  rw [lastOf, if_neg (by omega), Int.toNat_natCast, List.rtake]

theorem card_lastOf_le {w : Nat} (hw : 0 < w) (assigned : List Url) :
    (lastOf assigned w).toFinset.card ≤ w := by
  refine (List.toFinset_card_le _).trans ?_
  rw [lastOf_natCast hw, List.rtake, List.length_drop]
  omega

/-- What `distribute_proxies` promises of the proxies that it assigns to `n` chunks. -/
structure SpreadOver (views : Nat → PoolView) (pool : Option String) (weighted : Bool) (n w : Nat)
    (assigned : List Url) : Prop where
  length : assigned.length = n
  available : ∀ k q, assigned[k]? = some q → q ∈ (views (k + 1)).available pool
  /-- The pick itself comes to the proxy, without the fallback. -/
  picked : ∀ k q, assigned[k]? = some q →
    (views (k + 1)).pickProxy pool (lastOf (assigned.take k) w).toFinset none weighted = some q
  spaced : Spaced w assigned

variable {pin : Option String}

theorem cast_window (v : PoolView) (htwo : 2 ≤ (v.available pool).length) (w : Nat) :
    min (((v.available pool).length : Int) - 1) w =
      (min ((v.available pool).length - 1) w : Nat) := by
  omega

/-- With two proxies available every chunk gets one that differs from those of the chunks in the window
before it. -/
theorem spreadOver_distributeProxies (h : Aging views) (hall : (views 0).registry.all.Nodup)
    (htwo : 2 ≤ ((views 0).available pool).length) (hpin : truthy pin = none) (n w : Nat) :
    SpreadOver views pool weighted n (min (((views 0).available pool).length - 1) w)
      (distributeProxies views n pool pin weighted w) := by
  have hgrow : ∀ k, ((views 0).available pool).length ≤ ((views (k + 1)).available pool).length :=
    fun k => (h.sublist_zero (k + 1)).length_le
  have hpick : ∀ (k : Nat) (excludeSet : Finset Url),
      ∃ p, (views (k + 1)).pickProxy pool excludeSet none weighted = some p := by
    intro k excludeSet
    refine exists_pick (h.nodup_available hall (k + 1)) ?_ excludeSet weighted
    exact List.ne_nil_of_length_pos (by have := hgrow k; omega)
  rw [distributeProxies_of_two hpin htwo, cast_window _ htwo]
  have hsmall : min (((views 0).available pool).length - 1) w < ((views 0).available pool).length := by
    omega
  generalize min (((views 0).available pool).length - 1) w = win at hsmall ⊢
  obtain ⟨assigned, hloop, hlen, hassigned⟩ := distributeLoop_picks hpick n []
  rw [hloop, List.nil_append]
  constructor
  · exact hlen
  · exact fun k q hk => mem_available_of_pickProxy (hassigned k q hk)
  · exact fun k q hk => by simpa using hassigned k q hk
  · rcases Nat.eq_zero_or_pos win with rfl | hpos
    · exact spaced_zero assigned
    · rw [spaced_iff]
      intro k q hk
      have hcard : (lastOf (assigned.take k) win).toFinset.card <
          ((views (k + 1)).available pool).length :=
        (card_lastOf_le hpos _).trans_lt (hsmall.trans_le (hgrow k))
      have hout := ((picksOutside_of_lt hcard).1 q (by simpa using hassigned k q hk)).2
      simpa [lastOf_natCast hpos] using hout

theorem spreadOver_two : SpreadOver (fun _ => twoProxies) none true 3 1
    (distributeProxies (fun _ => twoProxies) 3 none none true 3) :=
  spreadOver_distributeProxies ⟨fun _ => rfl, fun _ => rfl, fun _ => rfl, fun _ => le_rfl⟩
    (by decide +kernel) (by decide +kernel) rfl 3 3

section Completeness

/-- A pick excludes nothing but what the chunks in the window before it were assigned. -/
def ExcludesWindow (views : Nat → PoolView) (pool : Option String) (n w : Nat) : Prop :=
  ∀ (assigned : List Url), assigned.length < n → ∀ p ∈ (views 0).available pool,
    p ∉ assigned.rtake (min (((views 0).available pool).length - 1) w) →
      p ∈ (views (assigned.length + 1)).candidates pool
        (lastOf assigned (min (((views 0).available pool).length - 1) w)).toFinset

/-- Every spaced sequence of available proxies is assigned with some draws. -/
def EverySpaced (views : Nat → PoolView) (pool pin : Option String) (weighted : Bool) (n w : Nat) :
    Prop :=
  ∀ assigned : List Url, (∀ p ∈ assigned, p ∈ (views 0).available pool) → assigned.length = n →
    Spaced (min (((views 0).available pool).length - 1) w) assigned →
      ∃ draws : Nat → Draw, distributeProxies (fun k => (views k).redraw (draws k)) n pool pin
        weighted w = assigned

theorem excludesWindow_of (hsame : ∀ k, (views k).available pool = (views 0).available pool)
    (htwo : 2 ≤ ((views 0).available pool).length) {n w : Nat} (h : 1 ≤ w ∨ n ≤ 1) :
    ExcludesWindow views pool n w := by
  intro assigned hlt p hp hout
  rw [cast_window _ htwo]
  have hlast : (lastOf assigned (min (((views 0).available pool).length - 1) w : Nat)) =
      assigned.rtake (min (((views 0).available pool).length - 1) w) := by
    rcases Nat.eq_zero_or_pos w with rfl | hpos
    · have hnil : assigned = [] := List.eq_nil_of_length_eq_zero (by omega)
      subst hnil
      simp [lastOf]
    · exact lastOf_natCast (by omega) assigned
  have hcard : (assigned.rtake (min (((views 0).available pool).length - 1) w)).toFinset.card <
      ((views (assigned.length + 1)).available pool).length := by
    refine (List.toFinset_card_le _).trans_lt ?_
    rw [hsame (assigned.length + 1), List.rtake, List.length_drop]
    omega
  rw [hlast, candidates_of_lt hcard, hsame (assigned.length + 1)]
  simpa using ⟨hp, hout⟩

theorem everySpaced_of_excludesWindow (hpin : truthy pin = none)
    (htwo : 2 ≤ ((views 0).available pool).length) {n w : Nat} (h : ExcludesWindow views pool n w) :
    EverySpaced views pool pin weighted n w := by
  intro assigned havail hlen hspaced
  rw [exists_draws_iff hpin htwo, assigns_iff]
  refine ⟨hlen, fun k q hk => ?_⟩
  have hlt : k < assigned.length := (List.getElem?_eq_some_iff.mp hk).1
  have htake : (assigned.take k).length = k := List.length_take_of_le hlt.le
  have hmem := h (assigned.take k) (by omega) q (havail q (List.mem_of_getElem? hk))
    (spaced_iff.mp hspaced k q hk)
  rw [htake] at hmem
  rw [List.nil_append, offered, if_neg (List.ne_nil_of_mem hmem)]
  exact hmem

theorem not_everySpaced_zero (hsame : ∀ k, (views k).available pool = (views 0).available pool)
    (hall : (views 0).registry.all.Nodup) (htwo : 2 ≤ ((views 0).available pool).length)
    (hpin : truthy pin = none) {n : Nat} (hn : 2 ≤ n) :
    ¬ EverySpaced views pool pin weighted n 0 := by
  intro h
  obtain ⟨p, hp⟩ : ∃ p, p ∈ (views 0).available pool :=
    List.exists_mem_of_ne_nil _ (List.ne_nil_of_length_pos (by omega))
  have hassigns := (exists_draws_iff hpin htwo).mp (h (List.replicate n p)
    (fun q hq => List.eq_of_mem_replicate hq ▸ hp) List.length_replicate
    (by rw [Nat.min_zero]; exact spaced_zero _))
  have hsecond := assigns_iff.mp hassigns.2 1 p
    (by rw [List.getElem?_replicate, if_pos (by omega)])
  have hwin : (lastOf ([] ++ (List.replicate n p).take 1)
      (min (((views 0).available pool).length - 1) (0 : Nat))).toFinset = {p} := by
    rw [cast_window _ htwo, Nat.min_zero, Nat.cast_zero, lastOf_zero, List.nil_append,
      List.take_replicate, Nat.min_eq_left (by omega)]
    rfl
  rw [hwin] at hsecond
  have hcard : ({p} : Finset Url).card < ((views 2).available pool).length := by
    rw [hsame 2, Finset.card_singleton]
    omega
  have hother : (views 2).candidates pool {p} ≠ [] := by
    have hnodup : ((views 2).available pool).Nodup := by
      rw [hsame 2]
      exact nodup_available hall
    obtain ⟨q, hq⟩ := exists_pick hnodup (by rw [hsame 2]; exact List.ne_nil_of_mem hp) {p} true
    exact List.ne_nil_of_mem (mem_candidates_of_pickProxy hq)
  rw [offered, if_neg hother, candidates_of_lt hcard] at hsecond
  simp at hsecond

/-- The window is all that is excluded exactly if there is one, or no second chunk. -/
theorem everySpaced_iff (hsame : ∀ k, (views k).available pool = (views 0).available pool)
    (hall : (views 0).registry.all.Nodup) (htwo : 2 ≤ ((views 0).available pool).length)
    (hpin : truthy pin = none) (weighted : Bool) (n w : Nat) :
    (EverySpaced views pool pin weighted n w ↔ 1 ≤ w ∨ n ≤ 1) ∧
      (ExcludesWindow views pool n w ↔ 1 ≤ w ∨ n ≤ 1) := by
  have hneed : EverySpaced views pool pin weighted n w → 1 ≤ w ∨ n ≤ 1 := by
    intro h
    by_contra hnot
    obtain rfl : w = 0 := by omega
    exact not_everySpaced_zero hsame hall htwo hpin (by omega) h
  refine ⟨⟨hneed, fun h => ?_⟩, ⟨fun h => ?_, excludesWindow_of hsame htwo⟩⟩
  · exact everySpaced_of_excludesWindow hpin htwo (excludesWindow_of hsame htwo h)
  · exact hneed (everySpaced_of_excludesWindow hpin htwo h)

theorem everySpaced_two : (EverySpaced (fun _ => twoProxies) none none true 3 3 ↔ 1 ≤ 3 ∨ 3 ≤ 1) ∧
    (ExcludesWindow (fun _ => twoProxies) none 3 3 ↔ 1 ≤ 3 ∨ 3 ≤ 1) := by
  refine everySpaced_iff ?_ ?_ ?_ ?_ true 3 3
  · exact fun _ => rfl
  · decide +kernel
  · decide +kernel
  · rfl

/-- With no window two chunks never share the first of two proxies. -/
theorem repeat_not_assigned : ¬ ∀ (views : Nat → PoolView) (pool pin : Option String) (weighted : Bool)
    (n w : Nat), (∀ k, (views k).available pool = (views 0).available pool) →
      (views 0).registry.all.Nodup → 2 ≤ ((views 0).available pool).length → truthy pin = none →
        EverySpaced views pool pin weighted n w := by
  intro h
  have hnodup : twoProxies.registry.all.Nodup := by decide +kernel
  have htwo : 2 ≤ (twoProxies.available none).length := by decide +kernel
  have hsame : ∀ k, ((fun _ : Nat => twoProxies) k).available none = twoProxies.available none :=
    fun _ => rfl
  exact not_everySpaced_zero hsame hnodup htwo rfl le_rfl
    (h (fun _ => twoProxies) none none true 2 0 hsame hnodup htwo rfl)

end Completeness

end Spacing

end ProxySplit.PoolView
