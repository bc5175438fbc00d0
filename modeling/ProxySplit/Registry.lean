import ProxySplit.CircuitBreaker
import Mathlib.Data.Finset.Card
import Mathlib.Algebra.BigOperators.Group.List.Basic

namespace ProxySplit

open Lib

/-- Python's truth of an optional string: `None` and `""` are false. -/
def truthy : Option String → Option String
  | none => none
  | some s => if s = "" then none else some s

theorem truthy_eq_some {o : Option String} {s : String} (h : truthy o = some s) :
    o = some s ∧ s ≠ "" := by
  cases o with
  | none => cases h
  | some t =>
    rw [truthy] at h
    split at h
    · cases h
    · next hne => cases h; exact ⟨rfl, hne⟩

@[simp] theorem truthy_truthy (o : Option String) : truthy (truthy o) = truthy o := by
  cases h : truthy o with
  | none => rfl
  | some s => simp [truthy, (truthy_eq_some h).2]

theorem isSome_truthy_or {o : Option String} (h : (truthy o).isSome) (a : Option String) :
    (truthy ((truthy a).or o)).isSome := by
  cases ha : truthy a with
  | none => exact h
  | some s => rw [Option.some_or, ← ha, truthy_truthy, ha]; rfl

def startsWith (s pre : String) : Bool := pre.toList.isPrefixOf s.toList

def supportedSchemes : List String := ["http://", "https://", "socks4://", "socks4a://", "socks5://"]

/-- The live pool.  A url without a supported scheme can get in by a retest that passes. -/
structure ProxyRegistry where
  all : List Url

/-- The shared state a proxy pick reads when it runs, with the random draw it makes:
`random.random()`, and the index `random.choice` takes (up to the number of candidates). -/
structure PoolView where
  registry : ProxyRegistry
  proxyTags : Dict Url (Finset String)
  breaker : CircuitBreaker
  clock : Clock
  scores : Dict Url ℚ
  random : ℚ
  choice : Nat

namespace PoolView

def urlsForPool (v : PoolView) (pool : Option String) (urls : List Url) : List Url :=
  match truthy pool with
  | none => urls
  | some p => urls.filter fun u => p ∈ (v.proxyTags.get? u).getD ∅

def available (v : PoolView) (pool : Option String) : List Url :=
  v.urlsForPool pool
    (v.registry.all.filter fun p => p ∉ v.breaker.blockedUrls v.clock.monotonic)

/-- What `score_choice` and `random_choice` choose from.  A set at least as large as the list
of available proxies is ignored. -/
def candidates (v : PoolView) (pool : Option String) (excludeSet : Finset Url) : List Url :=
  let candidates := v.available pool
  if excludeSet.Nonempty ∧ excludeSet.card < candidates.length then
    candidates.filter (· ∉ excludeSet)
  else candidates

def reach (r : ℚ) : ℚ → List (Url × ℚ) → Option Url
  | _, [] => none
  | cumulative, (p, w) :: rest =>
    if r ≤ cumulative + w then some p else reach r (cumulative + w) rest

def weight (v : PoolView) (p : Url) : ℚ := max (1 / 100) ((v.scores.get? p).getD (1 / 2))

def scoreChoice (v : PoolView) (pool : Option String) (excludeSet : Finset Url) : Option Url :=
  let candidates := v.candidates pool excludeSet
  let weights := candidates.map v.weight
  match reach (v.random * weights.sum) 0 (candidates.zip weights) with
  | some p => some p
  | none => candidates.getLast?

def randomChoice (v : PoolView) (pool : Option String) (excludeSet : Finset Url) : Option Url :=
  let candidates := v.candidates pool excludeSet
  candidates[v.choice % candidates.length]?

def pickProxy (v : PoolView) (pool : Option String) (excludeSet : Finset Url)
    (pin : Option Url) (weighted : Bool) : Option Url :=
  match truthy pin with
  | some p => some p
  | none => if weighted then v.scoreChoice pool excludeSet else v.randomChoice pool excludeSet

variable {v : PoolView} {pool : Option String} {excludeSet : Finset Url}

theorem mem_of_reach {r c : ℚ} {l : List (Url × ℚ)} {p : Url} (h : reach r c l = some p) :
    p ∈ l.map Prod.fst := by
  induction l generalizing c with
  | nil => cases h
  | cons q rest ih =>
    obtain ⟨p', w⟩ := q
    rw [reach] at h
    split at h
    · cases h; simp
    · exact List.mem_cons_of_mem _ (ih h)

theorem candidates_subset : v.candidates pool excludeSet ⊆ v.available pool := by
  intro p hp
  unfold candidates at hp
  simp only at hp
  split at hp
  · exact (List.mem_filter.mp hp).1
  · exact hp

theorem mem_of_scoreChoice {p : Url} (h : v.scoreChoice pool excludeSet = some p) :
    p ∈ v.candidates pool excludeSet := by
  unfold scoreChoice at h
  simp only at h
  split at h
  · next q hq =>
    cases h
    have hmem := mem_of_reach hq
    rw [List.map_fst_zip (by simp)] at hmem
    exact hmem
  · exact List.mem_of_getLast? h

theorem mem_of_randomChoice {p : Url} (h : v.randomChoice pool excludeSet = some p) :
    p ∈ v.candidates pool excludeSet := List.mem_of_getElem? h

theorem mem_available_of_pickProxy {weighted : Bool} {p : Url}
    (h : v.pickProxy pool excludeSet none weighted = some p) : p ∈ v.available pool := by
  cases weighted with
  | true => exact candidates_subset (mem_of_scoreChoice h)
  | false => exact candidates_subset (mem_of_randomChoice h)

theorem scoreChoice_eq_none : v.scoreChoice pool excludeSet = none ↔
    v.candidates pool excludeSet = [] := by
  unfold scoreChoice
  simp only
  split
  · next q hq =>
    have hmem := mem_of_reach hq
    rw [List.map_fst_zip (by simp)] at hmem
    simp [List.ne_nil_of_mem hmem]
  · exact List.getLast?_eq_none_iff

theorem randomChoice_eq_none : v.randomChoice pool excludeSet = none ↔
    v.candidates pool excludeSet = [] := by
  unfold randomChoice
  simp only [List.getElem?_eq_none_iff]
  constructor
  · intro h
    by_contra hne
    have hpos := List.length_pos_iff.mpr hne
    exact absurd (Nat.mod_lt v.choice hpos) (not_lt.mpr h)
  · intro h; simp [h]

theorem pickProxy_eq_none {weighted : Bool} :
    v.pickProxy pool ∅ none weighted = none ↔ v.available pool = [] := by
  have hcand : v.candidates pool ∅ = v.available pool := by simp [candidates]
  cases weighted with
  | true => rw [← hcand]; exact scoreChoice_eq_none
  | false => rw [← hcand]; exact randomChoice_eq_none

def viewOf (proxies : List Url) : PoolView :=
  ⟨⟨proxies⟩, .empty, .new 5 60 3600, ⟨0, 0⟩, .empty, 0, 0⟩

end PoolView

end ProxySplit
