import ProxySplit.ScoreMemo
import ProxySplit.Lib.Latest

namespace ProxySplit

open Lib

variable {K : Type}

namespace ProxyStats

inductive Event
  | success (now : ℚ) (nbytes : Nat) (latencyMs : ℚ)
  | failure (now : ℚ)
  | seeded (now latencyMs : ℚ) (nbytes : Nat)
  | reset
  | lookedUp

namespace Event

/-- What is put into `events`. -/
def stamped : Event → Option (ℚ × Bool × ℚ)
  | .success now _ latencyMs | .seeded now latencyMs _ => some (now, true, latencyMs)
  | .failure now => some (now, false, 0)
  | .reset | .lookedUp => none

/-- What is put into `latency_ms`. -/
def sample : Event → Option (ℚ × ℚ)
  | .success now _ latencyMs | .seeded now latencyMs _ => some (now, latencyMs)
  | .failure _ | .reset | .lookedUp => none

def nbytes : Event → Nat
  | .success _ n _ | .seeded _ _ n => n
  | .failure _ | .reset | .lookedUp => 0

def failed : Event → Option Bool
  | .failure _ => some true
  | .success .. | .reset => some false
  | .seeded .. | .lookedUp => none

end Event

/-- All that each entry was told since the proxy was last evicted. -/
abbrev Journal := Url → List Event

namespace Journal

def add (j : Journal) (url : Url) (event : Event) : Journal :=
  Function.update j url (j url ++ [event])

def note (j : Journal) : Call → Journal
  | .recordSuccess now url nbytes latencyMs => j.add url (.success now nbytes latencyMs)
  | .recordFailure now url => j.add url (.failure now)
  | .seedLatency now url latencyMs nbytes => j.add url (.seeded now latencyMs nbytes)
  | .resetConsecutiveFailures url => j.add url .reset
  | .evict url => Function.update j url []
  | .read _ r => (r.viaEntry).elim j fun url => j.add url .lookedUp

end Journal

def unbounded (log : List Event) : StatsEntry K where
  success := (log.filterMap Event.stamped).countP fun event => event.2.1
  failure := (log.filterMap Event.stamped).countP fun event => !event.2.1
  bytesTransferred := (log.map Event.nbytes).sum
  consecutiveFailures := ((log.filterMap Event.failed).rtakeWhile id).length
  latencyMs := log.filterMap Event.sample
  events := log.filterMap Event.stamped
  scoreCache := none

def remembered (e : StatsEntry K) : StatsEntry K :=
  { e with latencyMs := e.latencyMs.rtake 100, events := e.events.rtake 1000, scoreCache := none }

def bare (e : StatsEntry K) : StatsEntry K := { e with scoreCache := none }

def tell (e : StatsEntry K) : Event → StatsEntry K
  | .success now nbytes latencyMs => { e with
    success := e.success + 1
    bytesTransferred := e.bytesTransferred + nbytes
    latencyMs := appendMax 100 e.latencyMs (now, latencyMs)
    consecutiveFailures := 0
    events := appendMax 1000 e.events (now, true, latencyMs)
    scoreCache := none }
  | .failure now => { e with
    failure := e.failure + 1
    consecutiveFailures := e.consecutiveFailures + 1
    events := appendMax 1000 e.events (now, false, 0)
    scoreCache := none }
  | .seeded now latencyMs nbytes => { e with
    latencyMs := appendMax 100 e.latencyMs (now, latencyMs)
    bytesTransferred := e.bytesTransferred + nbytes
    success := e.success + 1
    events := appendMax 1000 e.events (now, true, latencyMs)
    scoreCache := none }
  | .reset => { e with consecutiveFailures := 0 }
  | .lookedUp => e

def Recalls (s : ProxyStats K) (j : Journal) : Prop :=
  ∀ url, (s.data.get? url).map bare = if j url = [] then none else some (remembered (unbounded (j url)))

section Entries

variable {e : StatsEntry K} {event : Event} {log : List Event}

theorem appendMax_rtake (n : Nat) (l : List α) (x : α) :
    appendMax n (l.rtake n) x = (l ++ [x]).rtake n := rtake_rtake_concat l n x

theorem bare_tell : bare (tell e event) = bare (tell (bare e) event) := by
  cases event with
  | success | failure | seeded | reset | lookedUp => rfl

theorem remembered_nil : remembered (unbounded [] : StatsEntry K) = .fresh := by
  simp [remembered, unbounded, StatsEntry.fresh, List.rtakeWhile_nil]

theorem filterMap_concat (f : α → Option β) (l : List α) (a : α) :
    (l ++ [a]).filterMap f = l.filterMap f ++ (f a).toList := by
  rw [List.filterMap_append, List.filterMap_cons]
  cases f a with
  | none => rfl
  | some b => rfl

theorem remembered_concat (log : List Event) (event : Event) :
    (remembered (unbounded (log ++ [event])) : StatsEntry K) =
      bare (tell (remembered (unbounded log)) event) := by
  simp only [remembered, unbounded, filterMap_concat, List.map_append, List.sum_append]
  cases event with
  | success | failure | seeded =>
    simp [tell, bare, appendMax_rtake, Event.stamped, Event.sample, Event.failed, Event.nbytes]
  | reset | lookedUp =>
    simp [tell, bare, Event.stamped, Event.sample, Event.failed, Event.nbytes]

end Entries

namespace Recalls

variable {s : ProxyStats K} {j : Journal} {url : Url}

theorem entry (h : Recalls s j) (url : Url) : bare (s.entry url) = remembered (unbounded (j url)) := by
  have hurl := h url
  rw [ProxyStats.entry]
  split at hurl
  · next hnil =>
    rw [Option.map_eq_none_iff.mp hurl, hnil, remembered_nil]
    rfl
  · obtain ⟨e, he, hbare⟩ := Option.map_eq_some_iff.mp hurl
    rw [he]
    exact hbare

theorem mem_keys (h : Recalls s j) (url : Url) : url ∈ s.data.keys ↔ j url ≠ [] := by
  have hurl := congrArg Option.isSome (h url)
  rw [Dict.mem_keys_iff, ← Option.isSome_iff_exists, ← Option.isSome_map (f := bare), hurl]
  split
  · next hnil => simp [hnil]
  · next hne => simp [hne]

theorem update {f : StatsEntry K → StatsEntry K} {event : Event} (h : Recalls s j)
    (hf : ∀ e, bare (f e) = bare (tell e event)) : Recalls (s.update url f) (j.add url event) := by
  intro u
  rw [ProxyStats.update, Dict.get?_set, Journal.add]
  by_cases hu : u = url
  · subst hu
    rw [if_pos rfl, Function.update_self, if_neg (by simp), Option.map_some, remembered_concat, ← h.entry,
      ← bare_tell, hf]
  · rw [if_neg hu, Function.update_of_ne hu]
    exact h u

theorem evict (h : Recalls s j) (url : Url) : Recalls (s.evict url) (Function.update j url []) := by
  intro u
  rw [ProxyStats.evict, Dict.get?_erase]
  by_cases hu : u = url
  · subst hu
    rw [if_pos rfl, Function.update_self, if_pos rfl, Option.map_none]
  · rw [if_neg hu, Function.update_of_ne hu]
    exact h u

theorem congr {s' : ProxyStats K} (h : Recalls s j) (hs : s'.data.mapValues bare = s.data.mapValues bare) :
    Recalls s' j := by
  intro u
  rw [← Dict.get?_mapValues, hs, Dict.get?_mapValues]
  exact h u

end Recalls

section Runs

variable [Field K] [LinearOrder K] [FloorRing K] {w : ℚ → K} {s : ProxyStats K} {j : Journal} {now start : ℚ}

omit [FloorRing K] in
theorem Recalls.scoreAll (h : Recalls s j) : Recalls (s.scoreAll w now) j := by
  refine h.congr (Dict.ext_entries ?_)
  simp only [ProxyStats.scoreAll, Dict.mapValues, List.map_map]
  rfl

omit [FloorRing K] in
theorem Recalls.score (h : Recalls s j) (url : Url) : Recalls (s.score w now url).2 j := by
  rw [ProxyStats.score]
  cases he : s.data.get? url with
  | none => exact h
  | some e =>
    refine h.congr ?_
    rw [ProxyStats.update, Dict.mapValues_set]
    refine Dict.set_of_get? ?_
    rw [Dict.get?_mapValues, he, ProxyStats.entry, he]
    rfl

theorem Recalls.read (h : Recalls s j) (r : Read) : Recalls (s.read w now r) (j.note (.read now r)) := by
  cases r with
  | getConsecutiveFailures url => exact h.update fun _ => rfl
  | score url => exact h.score url
  | successRate | throughput => exact h
  | perProxyChunkSize url => exact h.scoreAll.update fun _ => rfl
  | scoresSnapshot | snapshot | prometheusLines => exact h.scoreAll

theorem Recalls.call {p p' : ProxyStats K × ℚ} {c : Call} (h : Recalls p.1 j) (hc : call w p c = some p') :
    Recalls p'.1 (j.note c) := by
  cases c with
  | recordSuccess | recordFailure | seedLatency =>
    obtain ⟨-, hc⟩ := Option.ite_none_right_eq_some.mp hc
    cases hc
    exact h.update fun _ => rfl
  | resetConsecutiveFailures =>
    cases hc
    exact h.update fun _ => rfl
  | evict url =>
    cases hc
    exact h.evict url
  | read now r =>
    obtain ⟨-, hc⟩ := Option.ite_none_right_eq_some.mp hc
    cases hc
    exact h.read r

def journalled (w : ℚ → K) (start : ℚ) : Machine ((ProxyStats K × ℚ) × Journal) Call :=
  (machine w start).observed (fun _ => []) fun j _ c _ => j.note c

theorem recalls_of_reachable {p : (ProxyStats K × ℚ) × Journal} (h : (journalled w start).Reachable p) :
    Recalls p.1.1 p.2 := by
  refine h.invariant (I := fun p => Recalls p.1.1 p.2) ?_ ?_
  · intro url
    rfl
  · rintro p c p' hI - hstep
    obtain ⟨hcall, hnote⟩ := Machine.step_of_observed hstep
    rw [hnote]
    exact hI.call hcall

/-- The stamps are in the order of the log, and none is from after the last write. -/
structure Timely (clock : ℚ) (log : List Event) : Prop where
  sorted : (log.filterMap Event.stamped).Pairwise fun a b => a.1 ≤ b.1
  old : ∀ stamp ∈ log.filterMap Event.stamped, stamp.1 ≤ clock

namespace Timely

variable {clock : ℚ} {log : List Event} {event : Event}

theorem nil : Timely clock [] := ⟨.nil, fun _ h => by cases h⟩

theorem later (h : Timely clock log) (hle : clock ≤ now) : Timely now log :=
  ⟨h.sorted, fun stamp hstamp => (h.old stamp hstamp).trans hle⟩

theorem concat (h : Timely clock log) (hstamp : ∀ stamp, event.stamped = some stamp → stamp.1 = clock) :
    Timely clock (log ++ [event]) := by
  constructor
  case sorted =>
    rw [filterMap_concat, List.pairwise_append]
    refine ⟨h.sorted, ?_, fun a ha b hb => ?_⟩
    · cases event.stamped with
      | none => exact .nil
      | some stamp => exact List.pairwise_singleton ..
    · rw [hstamp b (Option.mem_toList.mp hb)]
      exact h.old a ha
  case old =>
    intro stamp hmem
    rw [filterMap_concat, List.mem_append] at hmem
    rcases hmem with hmem | hmem
    · exact h.old stamp hmem
    · exact (hstamp stamp (Option.mem_toList.mp hmem)).le

end Timely

theorem timely_add {clock : ℚ} {url : Url} {event : Event} (h : ∀ u, Timely clock (j u))
    (hstamp : ∀ stamp, event.stamped = some stamp → stamp.1 = clock) (u : Url) :
    Timely clock (j.add url event u) := by
  rw [Journal.add]
  by_cases hu : u = url
  · subst hu
    rw [Function.update_self]
    exact (h u).concat hstamp
  · rw [Function.update_of_ne hu]
    exact h u

theorem timely_call {p p' : ProxyStats K × ℚ} {c : Call} (h : ∀ u, Timely p.2 (j u))
    (hc : call w p c = some p') (u : Url) : Timely p'.2 (j.note c u) := by
  cases c with
  | recordSuccess | recordFailure | seedLatency =>
    obtain ⟨hle, hc⟩ := Option.ite_none_right_eq_some.mp hc
    cases hc
    refine timely_add (fun u => (h u).later hle) (fun stamp hstamp => ?_) u
    cases hstamp
    rfl
  | resetConsecutiveFailures url =>
    cases hc
    exact timely_add h (fun stamp hstamp => by cases hstamp) u
  | evict url =>
    cases hc
    rw [Journal.note]
    by_cases hu : u = url
    · subst hu
      rw [Function.update_self]
      exact .nil
    · rw [Function.update_of_ne hu]
      exact h u
  | read now r =>
    obtain ⟨-, hc⟩ := Option.ite_none_right_eq_some.mp hc
    cases hc
    rw [Journal.note]
    cases r.viaEntry with
    | none => exact h u
    | some url => exact timely_add h (fun stamp hstamp => by cases hstamp) u

theorem timely_of_reachable {p : (ProxyStats K × ℚ) × Journal} (h : (journalled w start).Reachable p)
    (url : Url) : Timely p.1.2 (p.2 url) := by
  refine h.invariant (I := fun p => ∀ url, Timely p.1.2 (p.2 url)) (fun _ => .nil) ?_ url
  rintro p c p' hI - hstep
  obtain ⟨hcall, hnote⟩ := Machine.step_of_observed hstep
  rw [hnote]
  exact timely_call hI hcall

/-- The stamps of the log that `_windowed` is to count. -/
def inWindow (since : ℚ) (log : List Event) : List (ℚ × Bool × ℚ) :=
  (log.filterMap Event.stamped).filter fun stamp => since ≤ stamp.1

theorem windowed_congr {e e' : StatsEntry K} {since : ℚ}
    (h : (e.events.filter fun event => since ≤ event.1) = e'.events.filter fun event => since ≤ event.1) :
    windowed since e = windowed since e' := by
  rw [windowed, windowed, h]

omit [Field K] [LinearOrder K] [FloorRing K] in
theorem filter_remembered {clock : ℚ} {log : List Event} (h : Timely clock log) (since : ℚ) :
    ((remembered (unbounded log) : StatsEntry K).events.filter fun event => since ≤ event.1) =
      (inWindow since log).rtake 1000 := by
  simp only [remembered, unbounded, inWindow]
  rw [filter_rtake (h.sorted.imp fun hab ha => ?_)]
  exact decide_eq_true ((of_decide_eq_true ha).trans hab)

/-- Every entry is what its deques can hold of all that the proxy was told since it was last evicted, and
an untold proxy has none. -/
theorem entry_eq_remembered {clock : ℚ} (h : (journalled w start).Reachable ((s, clock), j)) (url : Url) :
    (url ∈ s.data.keys ↔ j url ≠ []) ∧ bare (s.entry url) = remembered (unbounded (j url)) :=
  ⟨(recalls_of_reachable h).mem_keys url, (recalls_of_reachable h).entry url⟩

theorem windowed_counts (since : ℚ) (e : StatsEntry K) :
    (windowed since e).success + (windowed since e).failure = (windowed since e).eventsInWindow ∧
      (windowed since e).success ≤ e.events.countP (fun event => event.2.1) ∧
      (windowed since e).failure ≤ e.events.countP fun event => !event.2.1 := by
  have hok : ∀ l : List (ℚ × Bool × ℚ), (l.filter fun event => event.2.1).length =
      l.countP fun event => event.2.1 := fun l => List.countP_eq_length_filter.symm
  have hnot : ∀ l : List (ℚ × Bool × ℚ), (l.filter fun event => ¬ event.2.1).length =
      l.countP fun event => !event.2.1 := by
    intro l
    rw [List.countP_eq_length_filter]
    simp only [Bool.not_eq_true, Bool.decide_eq_false]
  simp only [windowed, hok, hnot]
  refine ⟨?_, List.filter_sublist.countP_le, List.filter_sublist.countP_le⟩
  rw [List.length_eq_countP_add_countP fun event : ℚ × Bool × ℚ => event.2.1]
  simp only [Bool.not_eq_true, Bool.decide_eq_false]

/-- The window of a row counts the last events of the whole log, and all that are in the window as long as
these are no more than `events` holds. -/
theorem window_of_log {clock m : ℚ} {url : Url} {row : SnapshotRow K}
    (h : (journalled w start).Reachable ((s, clock), j)) (hm : m ≠ 0)
    (hrow : (s.snapshot w now (some m)).1.get? url = some row) :
    ∃ window, row.window = some window ∧
      window.eventsInWindow = min 1000 (inWindow (now - m * 60) (j url)).length ∧
      window.success + window.failure = window.eventsInWindow ∧
      window.success ≤ row.success ∧ window.failure ≤ row.failure ∧
      ((inWindow (now - m * 60) (j url)).length ≤ 1000 →
        window = windowed (now - m * 60) (unbounded (j url))) := by
  rw [snapshot, Dict.get?_mapValues, Option.map_eq_some_iff] at hrow
  obtain ⟨e, he, rfl⟩ := hrow
  have hentry : bare e = remembered (unbounded (j url)) := by
    have hbare := (recalls_of_reachable h).entry url
    rwa [entry, he] at hbare
  have hfilter := filter_remembered (K := K) (timely_of_reachable h url) (now - m * 60)
  rw [← hentry] at hfilter
  have hsucc : e.success = ((j url).filterMap Event.stamped).countP fun event => event.2.1 :=
    congrArg StatsEntry.success hentry
  have hfail : e.failure = ((j url).filterMap Event.stamped).countP fun event => !event.2.1 :=
    congrArg StatsEntry.failure hentry
  have hsuffix : e.events.Sublist ((j url).filterMap Event.stamped) := by
    have hevents := congrArg StatsEntry.events hentry
    simp only [bare, remembered, unbounded] at hevents
    rw [hevents]
    exact (rtake_suffix ..).sublist
  obtain ⟨hsum, hle, hle'⟩ := windowed_counts (K := K) (now - m * 60) e
  refine ⟨windowed (now - m * 60) e, if_neg hm, ?_, hsum, ?_, ?_, fun hshort => ?_⟩
  · exact (congrArg List.length hfilter).trans (length_rtake ..)
  · exact hle.trans ((hsuffix.countP_le).trans_eq hsucc.symm)
  · exact hle'.trans ((hsuffix.countP_le).trans_eq hfail.symm)
  · refine windowed_congr (hfilter.trans ?_)
    rw [rtake_of_length_le hshort]
    rfl

end Runs

section Example

def successThenFailure : ProxyStats ℚ :=
  ((empty.recordSuccess 0 "http://10.0.0.1:8080" 100 250).recordFailure 10 "http://10.0.0.1:8080").1

def successThenFailureLog : Journal :=
  (Journal.add (fun _ => []) "http://10.0.0.1:8080" (.success 0 100 250)).add "http://10.0.0.1:8080"
    (.failure 10)

theorem reachable_successThenFailure :
    (journalled (fun _ => (1 : ℚ)) 0).Reachable ((successThenFailure, 10), successThenFailureLog) := by
  exact .step (l := .recordFailure 10 "http://10.0.0.1:8080") (.step
    (l := .recordSuccess 0 "http://10.0.0.1:8080" 100 250) .init trivial rfl) trivial rfl

theorem entry_of_successThenFailure :
    bare (successThenFailure.entry "http://10.0.0.1:8080") =
      ⟨1, 1, 100, 1, [(0, 250)], [(0, true, 250), (10, false, 0)], none⟩ :=
  ((entry_eq_remembered reachable_successThenFailure "http://10.0.0.1:8080").2).trans (by decide +kernel)

theorem window_of_successThenFailure : ∃ row window,
    (successThenFailure.snapshot (fun _ => 1) 20 (some (1 / 4))).1.get? "http://10.0.0.1:8080" = some row ∧
      row.window = some window ∧ window.success = 0 ∧ window.failure = 1 := by
  have hrow : (successThenFailure.snapshot (fun _ => 1) 20 (some (1 / 4))).1.get? "http://10.0.0.1:8080" =
      some (snapshotRow (fun _ => 1) 20 (1 / 4) (successThenFailure.entry "http://10.0.0.1:8080")) := rfl
  obtain ⟨window, hwindow, -, -, -, -, hexact⟩ :=
    window_of_log reachable_successThenFailure (by norm_num) hrow
  refine ⟨_, window, hrow, hwindow, ?_, ?_⟩
  · rw [hexact (by decide +kernel)]
    decide +kernel
  · rw [hexact (by decide +kernel)]
    decide +kernel

end Example

end ProxyStats

end ProxySplit
