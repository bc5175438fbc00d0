import ProxySplit.Registry
import Mathlib.Data.List.MinMax

namespace ProxySplit

open Lib

inductive Connector
  | tcp
  | socks (proxy : Url)
  deriving DecidableEq

def makeConnector (proxyUrl : Option Url) : Connector :=
  match truthy proxyUrl with
  | some p => if startsWith p "socks" then .socks p else .tcp
  | none => .tcp

def httpProxyParam (proxyUrl : Option Url) : Option Url :=
  match truthy proxyUrl with
  | some p => if startsWith p "http" then some p else none
  | none => none

abbrev Bytes := List UInt8

/-- A request on the session `SESSION_POOL.get(session)`. -/
structure HttpRequest where
  session : Option Url
  method : String
  url : Url
  headers : List (String × String)
  body : Option Bytes
  deriving DecidableEq

/-- The proxy the bytes of the request go through.  `none` is a direct connection. -/
def HttpRequest.via (r : HttpRequest) : Option Url :=
  match makeConnector r.session with
  | .socks p => some p
  | .tcp => httpProxyParam r.session

theorem truthy_of_startsWith {p pre : String} (hpre : pre ≠ "") (h : startsWith p pre = true) :
    truthy (some p) = some p := by
  rw [truthy, if_neg]
  rintro rfl
  simp only [startsWith, List.isPrefixOf_iff_prefix, String.toList_empty, List.prefix_nil] at h
  exact hpre (String.toList_eq_nil_iff.mp h)

def HttpRequest.Proxied (r : HttpRequest) : Prop :=
  ∀ p ∈ r.session, startsWith p "http" = true ∨ startsWith p "socks" = true

instance : DecidablePred HttpRequest.Proxied := fun _ => inferInstanceAs (Decidable (∀ _ ∈ _, _))

theorem HttpRequest.via_of_proxied {r : HttpRequest} {p : Url} (hr : r.session = some p)
    (h : r.Proxied) : r.via = some p := by
  have hcases := h p hr
  have htruthy : truthy (some p) = some p := by
    rcases hcases with h | h
    · exact truthy_of_startsWith (by decide) h
    · exact truthy_of_startsWith (by decide) h
  simp only [via, makeConnector, httpProxyParam, hr, htruthy]
  by_cases hs : startsWith p "socks" = true
  · simp [hs]
  · simp [hs, hcases.resolve_right hs]

theorem HttpRequest.proxied_of_via {r : HttpRequest} (h : r.via.isSome) : r.Proxied := by
  intro p hp
  rw [Option.mem_def] at hp
  simp only [via, makeConnector, httpProxyParam, hp] at h
  cases htruthy : truthy (some p) with
  | none => simp [htruthy] at h
  | some q =>
    obtain ⟨hq, -⟩ := truthy_eq_some htruthy
    cases hq
    by_cases hs : startsWith p "socks" = true
    · exact .inr hs
    · left
      by_contra hhttp
      simp [htruthy, hs, hhttp] at h

theorem HttpRequest.via_direct {r : HttpRequest} (hr : r.session = none) : r.via = none := by
  simp [via, makeConnector, httpProxyParam, hr, truthy]

namespace PoolView

/-- `assigned[-win:]`. -/
def lastOf (assigned : List Url) (win : Int) : List Url :=
  if win ≤ 0 then assigned.drop (-win).toNat
  else assigned.drop (assigned.length - win.toNat)

/-- `_best_available`: the first of the proxies with the highest score. -/
def bestAvailable (v : PoolView) (available : List Url) : Option Url :=
  available.argmax fun p => (v.scores.get? p).getD (1 / 2)

/-- The loop of `distribute_proxies` with `left` chunks to go, where `views` is what the next picks
find. -/
def distributeLoop (pool : Option String) (weighted : Bool) (win : Int) (best : Option Url) :
    (left : Nat) → (views : Nat → PoolView) → (assigned : List Url) → List Url
  | 0, _, assigned => assigned
  | left + 1, views, assigned =>
    let choice := (views 0).pickProxy pool (lastOf assigned win).toFinset none weighted
    distributeLoop pool weighted win best left (fun k => views (k + 1))
      (assigned ++ (choice.or best).toList)

/-- `session_pool.distribute_proxies`.  The first view is what `REGISTRY.available` finds, the others
are what the picks find. -/
def distributeProxies (views : Nat → PoolView) (numChunks : Nat) (pool pin : Option String)
    (weighted : Bool) (excludeWindow : Int) : List Url :=
  match truthy pin with
  | some p => List.replicate numChunks p
  | none =>
    match (views 0).available pool with
    | [] => []
    | [p] => List.replicate numChunks p
    | available =>
      distributeLoop pool weighted (min (available.length - 1) excludeWindow)
        ((views 0).bestAvailable available) numChunks (fun k => views (k + 1)) []

variable {views : Nat → PoolView} {pool pin : Option String} {weighted : Bool} {win : Int}
  {best : Option Url}

theorem length_distributeLoop (hbest : best.isSome) {left : Nat} {assigned : List Url} :
    (distributeLoop pool weighted win best left views assigned).length =
      assigned.length + left := by
  induction left generalizing views assigned with
  | zero => rfl
  | succ left ih =>
    obtain ⟨b, rfl⟩ := Option.isSome_iff_exists.mp hbest
    rw [distributeLoop, ih, List.length_append]
    cases (views 0).pickProxy pool (lastOf assigned win).toFinset none weighted with
    | none => simp only [Option.none_or, Option.toList_some, List.length_singleton]; omega
    | some p => simp only [Option.some_or, Option.toList_some, List.length_singleton]; omega

theorem mem_distributeLoop {left : Nat} {assigned : List Url} {p : Url}
    (h : p ∈ distributeLoop pool weighted win best left views assigned) :
    p ∈ assigned ∨ best = some p ∨ ∃ k < left, p ∈ (views k).available pool := by
  induction left generalizing views assigned with
  | zero => exact .inl h
  | succ left ih =>
    rw [distributeLoop] at h
    rcases ih h with hmem | hbest | ⟨k, hk, hmem⟩
    · rcases List.mem_append.mp hmem with hmem | hmem
      · exact .inl hmem
      · rw [Option.mem_toList, Option.or_eq_some_iff] at hmem
        rcases hmem with hpick | ⟨-, hbest⟩
        · exact .inr (.inr ⟨0, left.succ_pos, mem_available_of_pickProxy hpick⟩)
        · exact .inr (.inl hbest)
    · exact .inr (.inl hbest)
    · exact .inr (.inr ⟨k + 1, by omega, hmem⟩)

theorem isSome_bestAvailable {v : PoolView} {available : List Url} (h : available ≠ []) :
    (v.bestAvailable available).isSome := by
  rw [bestAvailable, Option.isSome_iff_ne_none, Ne, List.argmax_eq_none]
  exact h

theorem length_distributeProxies {n : Nat} {excludeWindow : Int} :
    (distributeProxies views n pool pin weighted excludeWindow).length = n ∨
      truthy pin = none ∧ (views 0).available pool = [] ∧
        distributeProxies views n pool pin weighted excludeWindow = [] := by
  unfold distributeProxies
  split
  · exact .inl List.length_replicate
  · next hpin =>
    split
    · next hnil => exact .inr ⟨hpin, hnil, rfl⟩
    · exact .inl List.length_replicate
    · next hnil _ =>
      left
      rw [length_distributeLoop (isSome_bestAvailable hnil), List.length_nil, Nat.zero_add]

theorem mem_available_of_mem_distributeProxies {n : Nat} {excludeWindow : Int} {p : Url}
    (hpin : truthy pin = none)
    (h : p ∈ distributeProxies views n pool pin weighted excludeWindow) :
    ∃ k ≤ n, p ∈ (views k).available pool := by
  simp only [distributeProxies, hpin] at h
  split at h
  · cases h
  · next q hone =>
    refine ⟨0, Nat.zero_le _, ?_⟩
    rw [hone, List.eq_of_mem_replicate h]
    exact List.mem_singleton_self q
  · rcases mem_distributeLoop h with hmem | hbest | ⟨k, hk, hmem⟩
    · cases hmem
    · exact ⟨0, Nat.zero_le _, List.argmax_mem hbest⟩
    · exact ⟨k + 1, hk, hmem⟩

end PoolView

end ProxySplit
