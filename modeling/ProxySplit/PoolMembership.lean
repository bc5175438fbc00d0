import ProxySplit.Pool

namespace ProxySplit.Pool

open Lib

inductive Change
  | added (url : Url)
  | removed (url : Url)
  | replaced (newList : List Url)
  deriving DecidableEq

def change (s : Pool K) : Op → Option Change
  | .add url _ =>
    if supported url ∧ s.all ≠ [] ∧ url ∉ s.all then some (.added url) else none
  | .remove url => if url ∈ s.all then some (.removed url) else none
  | .finish i alive =>
    if s.all = [] then none else s.reloads[i]?.map fun r => .replaced (r.newPool alive)
  | _ => none

/-- Whether the most recent change that concerns the url put it into the pool.  The latest change comes
first. -/
def Placed (url : Url) : List Change → Prop
  | [] => False
  | .added u :: changes => u = url ∨ Placed url changes
  | .removed u :: changes => u ≠ url ∧ Placed url changes
  | .replaced newList :: _ => url ∈ newList

instance decidablePlaced (url : Url) : (changes : List Change) → Decidable (Placed url changes)
  | [] => inferInstanceAs (Decidable False)
  | .added u :: changes =>
    have := decidablePlaced url changes
    inferInstanceAs (Decidable (u = url ∨ Placed url changes))
  | .removed u :: changes =>
    have := decidablePlaced url changes
    inferInstanceAs (Decidable (u ≠ url ∧ Placed url changes))
  | .replaced newList :: _ => inferInstanceAs (Decidable (url ∈ newList))

/-- A retest that passes is one of a proxy that the pool still has. -/
def RetestsMembers (s : Pool K) : Op → Prop
  | .retest true => ∀ url ∈ s.candidates.head?, url ∈ s.all
  | _ => True

instance (s : Pool K) : (op : Op) → Decidable (s.RetestsMembers op)
  | .retest true => inferInstanceAs (Decidable (∀ url ∈ s.candidates.head?, url ∈ s.all))
  | .retest false | .add .. | .remove _ | .collect .. | .finish .. | .setGlobalRps _ | .getLimiter _
  | .recordFailure _ | .recordSuccess .. | .perProxyChunkSize _ | .warmup .. | .allowRequest _
  | .elapse _ | .beginRound => inferInstanceAs (Decidable True)

structure Operated (K : Type) where
  pool : Pool K
  changes : List Change
  deriving DecidableEq

namespace Operated

def step (s : Operated K) (op : Op) : Option (Operated K) :=
  (s.pool.step op).map fun p => ⟨p, (s.pool.change op).toList ++ s.changes⟩

def machine (p : Pool K) : Machine (Operated K) Op := ⟨⟨p, [.replaced p.all]⟩, step⟩

def Follows (s : Operated K) : Prop := ∀ url, url ∈ s.pool.all ↔ Placed url s.changes

end Operated

variable {s s' : Pool K} {op : Op}

/-- What a step does to the pool: what the operator asked for, nothing, or a return. -/
theorem all_cases (h : s.step op = some s') :
    (s.change op = none ∧ s.RetestsMembers op ∧ s'.all = s.all) ∨
    (∃ url, s.change op = some (.added url) ∧ url ∉ s.all ∧ s'.all = s.all ++ [url]) ∨
    (∃ url, s.change op = some (.removed url) ∧ s'.all = s.all.erase url) ∨
    (∃ r alive, s.change op = some (.replaced (Reloading.newPool r alive)) ∧
      s'.all = r.newPool alive) ∨
    (∃ url, s.change op = none ∧ ¬ s.RetestsMembers op ∧ url ∉ s.all ∧ s'.all = s.all ++ [url]) := by
  cases op with
  | add url tags =>
    cases h
    by_cases hsup : supported url ∧ s.all ≠ []
    · by_cases hmem : url ∈ s.all
      · exact .inl (by simp [change, RetestsMembers, proxyAdd, add, hsup, hmem])
      · exact .inr (.inl ⟨url, by simp [change, proxyAdd, add, hsup, hmem]⟩)
    · refine .inl ⟨if_neg fun h => hsup ⟨h.1, h.2.1⟩, trivial, ?_⟩
      simp [proxyAdd, hsup]
  | remove url =>
    cases h
    by_cases hmem : url ∈ s.all
    · exact .inr (.inr (.inl ⟨url, by simp [change, remove, hmem]⟩))
    · exact .inl (by simp [change, RetestsMembers, remove, hmem])
  | finish i alive =>
    obtain ⟨r, hr, rfl⟩ := finish_of_step h
    by_cases hempty : s.all = []
    · exact .inl (by simp [change, RetestsMembers, all_finish, hempty])
    · exact .inr (.inr (.inr (.inl ⟨r, alive, by simp [change, all_finish, hr, hempty]⟩)))
  | retest ok =>
    obtain ⟨url, rest, hc, rfl⟩ := retest_of_step h
    cases ok with
    | false => exact .inl ⟨rfl, trivial, rfl⟩
    | true =>
      by_cases hmem : url ∈ s.all
      · exact .inl ⟨rfl, by simp [RetestsMembers, hc, hmem], by simp [retested, hmem]⟩
      · refine .inr (.inr (.inr (.inr ⟨url, rfl, ?_, hmem, by simp [retested, add, hmem]⟩)))
        simp [RetestsMembers, hc, hmem]
  | getLimiter url =>
    cases h
    refine .inl ⟨rfl, trivial, ?_⟩
    simp only [getLimiter]
    split
    · rfl
    · rfl
  | warmup url n lat =>
    obtain ⟨-, rfl⟩ := warmup_of_step h
    exact .inl ⟨rfl, trivial, rfl⟩
  | elapse dt =>
    obtain ⟨-, rfl⟩ := elapse_of_step h
    exact .inl ⟨rfl, trivial, rfl⟩
  | beginRound =>
    obtain ⟨-, rfl⟩ := beginRound_of_step h
    exact .inl ⟨rfl, trivial, rfl⟩
  | collect | setGlobalRps | recordFailure | recordSuccess | perProxyChunkSize | allowRequest =>
    cases h
    exact .inl ⟨rfl, trivial, rfl⟩

theorem nodup_step (hall : s.all.Nodup) (h : s.step op = some s') : s'.all.Nodup := by
  have happend : ∀ {url}, url ∉ s.all → (s.all ++ [url]).Nodup := fun hnew =>
    List.Nodup.append hall (List.nodup_singleton _) (by simpa using hnew)
  rcases all_cases h with ⟨-, -, heq⟩ | ⟨url, -, hnew, heq⟩ | ⟨url, -, heq⟩ | ⟨r, alive, -, heq⟩ |
    ⟨url, -, -, hnew, heq⟩
  · rwa [heq]
  · rw [heq]; exact happend hnew
  · rw [heq]; exact hall.erase url
  · rw [heq]; exact r.nodup_newPool alive
  · rw [heq]; exact happend hnew

theorem nodup_start {sources : ProxySources} {tor : TorUrls} {alive : Url → Bool} {threshold : Nat}
    {base max rps : ℚ} {clock : Clock}
    (h : start K sources tor alive threshold base max rps clock = some s) : s.all.Nodup := by
  obtain ⟨r, -, rfl⟩ := Option.map_eq_some_iff.mp h
  exact r.nodup_newPool alive

namespace Operated

variable {s s' : Operated K} {p : Pool K}

theorem step_eq (h : s.step op = some s') : s.pool.step op = some s'.pool ∧
    s'.changes = (s.pool.change op).toList ++ s.changes := by
  obtain ⟨p, hp, rfl⟩ := Option.map_eq_some_iff.mp h
  exact ⟨hp, rfl⟩

theorem nodup_of_reachable (hp : p.all.Nodup) (hs : (machine p).Reachable s) : s.pool.all.Nodup :=
  hs.invariant (I := fun s => s.pool.all.Nodup) hp fun _ _ _ hI _ hstep =>
    nodup_step hI (step_eq hstep).1

theorem Follows.step_iff (hall : s.pool.all.Nodup) (hs : s.Follows) (h : s.step op = some s') :
    s'.Follows ↔ s.pool.RetestsMembers op := by
  obtain ⟨hpool, hchanges⟩ := step_eq h
  have hchange : s.pool.change op ≠ none → s.pool.RetestsMembers op := by
    unfold RetestsMembers change
    cases op with
    | retest ok => exact fun hne => absurd rfl hne
    | _ => exact fun _ => trivial
  unfold Follows
  rw [hchanges]
  rcases all_cases hpool with ⟨hnone, hmembers, heq⟩ | ⟨url, hsome, -, heq⟩ | ⟨url, hsome, heq⟩ |
    ⟨r, alive, hsome, heq⟩ | ⟨url, hnone, hreturns, hnew, heq⟩
  · rw [hnone, heq]
    exact iff_of_true hs hmembers
  · rw [hsome, heq]
    refine iff_of_true (fun u => ?_) (hchange (by simp [hsome]))
    simp [Placed, hs u, or_comm, eq_comm]
  · rw [hsome, heq]
    refine iff_of_true (fun u => ?_) (hchange (by simp [hsome]))
    simp [Placed, hall.mem_erase_iff, hs u, eq_comm]
  · rw [hsome, heq]
    refine iff_of_true (fun u => ?_) (hchange (by simp [hsome]))
    simp [Placed]
  · rw [hnone, heq]
    refine iff_of_false (fun hfollows => ?_) hreturns
    have hplaced := (hfollows url).mp (by simp)
    exact hnew ((hs url).mpr hplaced)

theorem follows_of_reach (hp : p.all.Nodup)
    (hs : (machine p).Reach (fun s op => s.pool.RetestsMembers op) s) : s.Follows := by
  have hboth : s.pool.all.Nodup ∧ s.Follows := by
    refine hs.invariant (I := fun s => s.pool.all.Nodup ∧ s.Follows) ⟨hp, ?_⟩ ?_
    · intro url
      simp [machine, Placed]
    · intro s op s' hI hok hstep
      exact ⟨nodup_step hI.1 (step_eq hstep).1, (hI.2.step_iff hI.1 hstep).mpr hok⟩
  exact hboth.2

/-- No run puts a proxy into the pool twice.  The pool is what the operator made it as long as the retests
that pass are of proxies that are still in it, and no longer. -/
theorem follows_iff (K : Type) (sources : ProxySources) (tor : TorUrls) (alive : Url → Bool)
    (threshold : Nat) (base max rps : ℚ) (clock : Clock) (p : Pool K)
    (hp : start K sources tor alive threshold base max rps clock = some p) (s : Operated K) :
    ((machine p).Reachable s → s.pool.all.Nodup) ∧
      ((machine p).Reach (fun s op => s.pool.RetestsMembers op) s → s.Follows ∧
        ∀ op s', s.step op = some s' → (s'.Follows ↔ s.pool.RetestsMembers op)) := by
  have hall := nodup_start hp
  refine ⟨nodup_of_reachable hall, fun hs => ⟨follows_of_reach hall hs, fun op s' hstep => ?_⟩⟩
  exact (follows_of_reach hall hs).step_iff (nodup_of_reachable hall hs.reachable) hstep

theorem follows_after_retest : ∃ s : Operated Unit, s.Follows ∧
    s.pool.health.breaker.strike "http://10.0.0.1:8080" = 0 ∧
    "http://10.0.0.1:8080" ∈ s.pool.health.breaker.breakers.keys := by
  have hrun : ∃ s, (machine twoAlive).Reach (fun s op => s.pool.RetestsMembers op) s ∧
      s.pool.health.breaker.strike "http://10.0.0.1:8080" = 0 ∧
      "http://10.0.0.1:8080" ∈ s.pool.health.breaker.breakers.keys :=
    Machine.exists_reach_if
      [.recordFailure "http://10.0.0.1:8080", .elapse 60, .beginRound, .retest true]
      (by decide +kernel)
  obtain ⟨s, hs, hreleased⟩ := hrun
  exact ⟨s, ((follows_iff Unit _ _ _ _ _ _ _ _ _ start_twoAlive s).2 hs).1, hreleased⟩

/-- A proxy is banned and the operator removes it, and the health checker brings it back. -/
theorem removed_proxy_returns : ¬ ∀ (sources : ProxySources) (tor : TorUrls) (alive : Url → Bool)
    (threshold : Nat) (base max rps : ℚ) (clock : Clock) (p : Pool Unit),
    start Unit sources tor alive threshold base max rps clock = some p →
      ∀ s, (machine p).Reachable s → s.Follows := by
  intro h
  obtain ⟨s, hs, hback, hplaced⟩ := Machine.exists_reachable (M := machine twoAlive)
    (P := fun s => "http://10.0.0.1:8080" ∈ s.pool.all ∧ ¬ Placed "http://10.0.0.1:8080" s.changes)
    [.recordFailure "http://10.0.0.1:8080", .remove "http://10.0.0.1:8080", .elapse 60, .beginRound,
      .retest true]
    (by decide +kernel)
  exact hplaced ((h _ _ _ _ _ _ _ _ _ start_twoAlive s hs _).mp hback)

end Operated

end ProxySplit.Pool
