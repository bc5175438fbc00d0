import ProxySplit.ProxyScore
import ProxySplit.PyFloat
import ProxySplit.CircuitBreaker
import ProxySplit.Lib.Ranking
import Mathlib.Algebra.Order.Monoid.WithTop
import Mathlib.Data.String.Basic

namespace ProxySplit

open Lib

namespace PyText

/-- The characters that `str.isdigit` takes and `int` does not, from the first to the last of each range. -/
def digitForms : List (Nat × Nat) :=
  [(0xb2, 0xb3), (0xb9, 0xb9), (0x1369, 0x1371), (0x19da, 0x19da), (0x2070, 0x2070), (0x2074, 0x2079),
    (0x2080, 0x2089), (0x2460, 0x2468), (0x2474, 0x247c), (0x2488, 0x2490), (0x24ea, 0x24ea),
    (0x24f5, 0x24fd), (0x24ff, 0x24ff), (0x2776, 0x277e), (0x2780, 0x2788), (0x278a, 0x2792),
    (0x10a40, 0x10a43), (0x10e60, 0x10e68), (0x11052, 0x1105a), (0x1f100, 0x1f10a)]

def isDigitChar (c : Char) : Bool := isDigit c || digitForms.any fun r => r.1 ≤ c.toNat ∧ c.toNat ≤ r.2

def isdigit (s : List Char) : Bool := s ≠ [] ∧ s.all isDigitChar

/-- `str.lower` as far as it makes ASCII letters. -/
def lower (s : List Char) : List Char := s.map fun c => if c = '\u212a' then 'k' else c.toLower

theorem digitsOf_eq_none {s : List Char} {c : Char} (hc : c ∈ s) (hdigit : isDigit c = false)
    (hne : c ≠ '_') : digitsOf s = none := by
  fun_induction digitsOf s with
  | case1 => rfl
  | case2 d hd =>
    rw [List.mem_singleton.mp hc, hd] at hdigit
    cases hdigit
  | case3 d hd rest ih =>
    have hrest : c ∈ rest := by
      rcases List.mem_cons.mp hc with rfl | hc
      · rw [hd] at hdigit
        cases hdigit
      · exact (List.mem_cons.mp hc).resolve_left hne
    rw [ih hrest, Option.map_none]
  | case4 d hd x rest hx ih =>
    have hrest : c ∈ x :: rest := by
      rcases List.mem_cons.mp hc with rfl | hc
      · rw [hd] at hdigit
        cases hdigit
      · exact hc
    rw [ih hrest, Option.map_none]
  | case5 => rfl

theorem digitForms_disjoint : ∀ r ∈ digitForms, ∀ n ∈ '+'.toNat :: '-'.toNat :: '_'.toNat :: spaces,
    ¬ (r.1 ≤ n ∧ n ≤ r.2) := by decide

theorem not_isSpace_of_isDigitChar {c : Char} (h : isDigitChar c = true) :
    isSpace c = false ∧ c ≠ '+' ∧ c ≠ '-' ∧ c ≠ '_' := by
  rcases Bool.or_eq_true_iff.mp h with hdigit | hform
  · have hne : ∀ {d : Char}, isDigit d = false → c ≠ d := by
      rintro d hd rfl
      rw [hd] at hdigit
      cases hdigit
    exact ⟨not_isSpace_of_isDigit hdigit, hne isDigit_plus, hne isDigit_dash, hne isDigit_underscore⟩
  · obtain ⟨r, hr, hrange⟩ := List.any_eq_true.mp hform
    have hout : ∀ n ∈ '+'.toNat :: '-'.toNat :: '_'.toNat :: spaces, c.toNat ≠ n := by
      rintro n hn rfl
      exact digitForms_disjoint r hr _ hn (of_decide_eq_true hrange)
    refine ⟨decide_eq_false fun hspace => hout _ (by simp [hspace]) rfl, ?_, ?_, ?_⟩
    · rintro rfl
      exact hout _ (by simp) rfl
    · rintro rfl
      exact hout _ (by simp) rfl
    · rintro rfl
      exact hout _ (by simp) rfl

theorem int_of_isdigit {s : List Char} (h : isdigit s = true) : int s =
    if s.all isDigit = true ∧ s.length ≤ maxStrDigits then some (digitsValue s : Int) else none := by
  obtain ⟨hne, hall⟩ : s ≠ [] ∧ s.all isDigitChar = true := of_decide_eq_true h
  have hother : ∀ c ∈ s, isSpace c = false ∧ c ≠ '+' ∧ c ≠ '-' ∧ c ≠ '_' := fun c hc =>
    not_isSpace_of_isDigitChar (List.all_eq_true.mp hall c hc)
  by_cases hdigits : ∀ c ∈ s, isDigit c = true
  · rw [int_of_isDigit hne hdigits]
    exact if_congr (and_iff_right (List.all_eq_true.mpr hdigits)).symm rfl rfl
  rw [if_neg fun h => hdigits (List.all_eq_true.mp h.1)]
  push Not at hdigits
  obtain ⟨c, hc, hdigit⟩ := hdigits
  have hliteral : natLiteral s = none := by
    rw [natLiteral, digitsOf_eq_none hc (by simpa using hdigit) (hother c hc).2.2.2, Option.bind_none]
  unfold int
  rw [stripOf_eq_self fun c hc => not_isNumberSpace_of_isSpace (hother c hc).1]
  split
  · exact absurd rfl (hother '+' (by simp)).2.1
  · exact absurd rfl (hother '-' (by simp)).2.2.1
  · rw [hliteral, Option.map_none]

end PyText

structure StatsQuery where
  window : Option (List Char)
  filter : Option (List Char)
  sort : Option (List Char)
  limit : Option (List Char)

inductive SortBy
  | score | latency | failures | url | success
  deriving DecidableEq

structure StatsRow (K : Type) extends SnapshotRow K where
  circuitState : CBState
  blocked : Bool

variable {K : Type} [Field K] [LinearOrder K]

namespace StatsQuery

def word (value : Option (List Char)) : String := .ofList (PyText.lower (PyText.strip (value.getD [])))

def sixty : PyFloat → PyFloat
  | .fin q => .ofRat (q * 60)
  | x => x

def windowMin (q : StatsQuery) : Option PyFloat :=
  match q.window with
  | none | some [] => none
  | some window =>
    if window.getLast? = some 'h' then (PyFloat.parse window.dropLast).map sixty
    else if window.getLast? = some 'm' then PyFloat.parse window.dropLast
    else PyFloat.parse window

/-- The time from which `snapshot` counts, if it counts at all. -/
def since (q : StatsQuery) (now : ℚ) : Option PyFloat :=
  match q.windowMin with
  | none | some (.fin 0) => none
  | some minutes => some (.addTo now (sixty minutes).neg)

def sortBy (q : StatsQuery) : Option SortBy :=
  match word q.sort with
  | "score" => some .score
  | "latency" => some .latency
  | "failures" => some .failures
  | "url" => some .url
  | "success" => some .success
  | _ => none

def passes (q : StatsQuery) (blocked : Bool) : Bool :=
  if word q.filter = "blocked" then blocked else if word q.filter = "available" then !blocked else true

/-- How many rows there may be, if `limit` says so.  The outer `none` is `ValueError`. -/
def maxRows (q : StatsQuery) : Option (Option Nat) :=
  let limit := q.limit.getD []
  if PyText.isdigit limit then (PyText.int limit).map fun n => some n.toNat else some none

end StatsQuery

def SortBy.ranking : SortBy → Ranking (Url × StatsRow K)
  | .score => .ofKey fun p => -p.2.score
  | .latency => .ofKey fun p => match p.2.avgLatencyMs with
    | none => (⊤ : WithTop K)
    | some x => if x = 0 then ⊤ else x
  | .failures => .ofKey fun p => -(p.2.failure : ℤ)
  | .url => .ofKey fun p => p.1
  | .success => .ofKey fun p => -(p.2.success : ℤ)

section Report

variable [FloorRing K]

/-- `_windowed`, from a time that a query gives. -/
def windowedSince (since : PyFloat) (e : StatsEntry K) : WindowRow K :=
  let evts := e.events.filter fun event => since.le event.1
  let succ := (evts.filter fun event => event.2.1).length
  let fail := (evts.filter fun event => ¬ event.2.1).length
  let lats : List K := (evts.filter fun event => event.2.1 ∧ 0 < event.2.2).map fun event => (event.2.2 : K)
  { success := succ
    failure := fail
    successRate := if succ + fail = 0 then none else some (roundTo 3 (succ / (succ + fail : Nat)))
    avgLatencyMs := if lats = [] then none else some (roundTo 1 (lats.sum / lats.length))
    eventsInWindow := evts.length }

theorem windowedSince_fin (t : ℚ) (e : StatsEntry K) :
    windowedSince (.fin t) e = ProxyStats.windowed t e := rfl

/-- What `/proxy/stats` looks at besides the statistics: the two clocks, and `BREAKER` of its module. -/
structure StatsView where
  now : ℚ
  monotonic : ℚ
  breaker : Option CircuitBreaker

def statsRow (w : ℚ → K) (v : StatsView) (q : StatsQuery) (url : Url) (e : StatsEntry K) : StatsRow K :=
  { ProxyStats.snapshotRow w v.now 0 e with
    window := (q.since v.now).map fun since => windowedSince since e
    circuitState := v.breaker.elim .closed (·.stateFor url)
    blocked := v.breaker.any fun b => url ∈ b.blockedUrls v.monotonic }

def statsRows (w : ℚ → K) (v : StatsView) (q : StatsQuery) (s : ProxyStats K) : List (Url × StatsRow K) :=
  (s.data.entries.map fun p => (p.1, statsRow w v q p.1 p.2)).filter fun p => q.passes p.2.blocked

/-- `/proxy/stats`, and the statistics after it.  `none` is an exception. -/
def statsReport (w : ℚ → K) (v : StatsView) (q : StatsQuery) (s : ProxyStats K) :
    Option (List (Url × StatsRow K)) × ProxyStats K :=
  let snap := statsRows w v q s
  let snap := match q.sortBy with
    | none => snap
    | some sort => sort.ranking.rank snap
  (q.maxRows.map fun limit => limit.elim snap snap.take, s.scoreAll w v.now)

def StatsQuery.ranking (q : StatsQuery) : Ranking (Url × StatsRow K) :=
  q.sortBy.elim (.ofKey fun _ => ()) SortBy.ranking

variable {w : ℚ → K} {v : StatsView} {q : StatsQuery} {s s' : ProxyStats K} {out : List (Url × StatsRow K)}
  {p : Url × StatsRow K}

theorem statsReport_fst : (statsReport w v q s).1 = q.maxRows.map fun limit =>
    limit.elim (q.ranking.rank (statsRows w v q s)) (q.ranking.rank (statsRows w v q s)).take := by
  rw [statsReport, StatsQuery.ranking]
  cases q.sortBy with
  | none =>
    have hrank : (Ranking.ofKey fun _ => ()).rank (statsRows w v q s) = statsRows w v q s := by
      refine List.mergeSort_of_pairwise (List.pairwise_of_forall fun a b => ?_)
      exact decide_eq_true (le_refl ())
    simp only [Option.elim_none, hrank]
  | some sort => rfl

theorem mem_statsRows : p ∈ statsRows w v q s ↔
    ∃ e, s.data.get? p.1 = some e ∧ p.2 = statsRow w v q p.1 e ∧ q.passes p.2.blocked = true := by
  rw [statsRows, List.mem_filter, List.mem_map]
  constructor
  · rintro ⟨⟨⟨url, e⟩, hmem, rfl⟩, hpass⟩
    exact ⟨e, (Dict.mem_entries_iff ..).mp hmem, rfl, hpass⟩
  · rintro ⟨e, he, hrow, hpass⟩
    exact ⟨⟨(p.1, e), (Dict.mem_entries_iff ..).mpr he, Prod.ext rfl hrow.symm⟩, hpass⟩

theorem nodup_keys : ((statsRows w v q s).map Prod.fst).Nodup := by
  refine (List.filter_sublist.map _).nodup ?_
  rw [List.map_map]
  exact s.data.nodup

theorem nodup_statsRows : (statsRows w v q s).Nodup := nodup_keys.of_map

/-- A report is right when each proxy has one row at most, the rows are in order, a tie as in the table, and a
row that passes the filter is left out only when as many as there may be come before it. -/
structure RightReport (w : ℚ → K) (v : StatsView) (q : StatsQuery) (s : ProxyStats K)
    (out : List (Url × StatsRow K)) : Prop where
  keys : (out.map Prod.fst).Nodup
  sorted : out.Pairwise (q.ranking.Before (statsRows w v q s))
  rows : ∀ p, p ∈ out ↔
    (∃ e, s.data.get? p.1 = some e ∧ p.2 = statsRow w v q p.1 e ∧ q.passes p.2.blocked = true) ∧
      ∀ n, q.maxRows = some (some n) →
        {b | b ∈ statsRows w v q s ∧ q.ranking.Before (statsRows w v q s) b p}.ncard < n

theorem rightReport_of_mem (h : out ∈ (statsReport w v q s).1) : RightReport w v q s out := by
  rw [statsReport_fst] at h
  obtain ⟨limit, hlimit, rfl⟩ := Option.map_eq_some_iff.mp h
  have hsub : (limit.elim (q.ranking.rank (statsRows w v q s))
      (q.ranking.rank (statsRows w v q s)).take).Sublist (q.ranking.rank (statsRows w v q s)) := by
    cases limit with
    | none => exact .refl _
    | some n => exact List.take_sublist ..
  refine ⟨?_, (Ranking.pairwise_before nodup_statsRows).sublist hsub, fun p => ?_⟩
  · refine (hsub.map _).nodup ?_
    exact ((Ranking.rank_perm ..).map Prod.fst).nodup_iff.mpr nodup_keys
  · rw [← mem_statsRows, hlimit]
    cases limit with
    | none =>
      simp only [Option.elim_none, Ranking.mem_rank, Option.some.injEq, reduceCtorEq, false_implies,
        implies_true, and_true]
    | some n =>
      simp only [Option.elim_some, Ranking.mem_take_rank_iff nodup_statsRows, Option.some.injEq,
        forall_eq']

theorem maxRows_eq_none : q.maxRows = none ↔ PyText.isdigit (q.limit.getD []) = true ∧
    ((∃ c ∈ q.limit.getD [], PyText.isDigit c = false) ∨ PyText.maxStrDigits < (q.limit.getD []).length) := by
  rw [StatsQuery.maxRows]
  by_cases hdigit : PyText.isdigit (q.limit.getD []) = true
  · simp only [hdigit, if_true, true_and, Option.map_eq_none_iff, PyText.int_of_isdigit hdigit]
    rw [ite_eq_right_iff]
    simp only [reduceCtorEq, imp_false, not_and_or, List.all_eq_true, not_forall, Bool.not_eq_true,
      exists_prop, not_le]
  · simp [hdigit]

theorem mem_report_iff (h : out ∈ (statsReport w v q s).1) (hlimit : q.maxRows = some none) (url : Url) :
    url ∈ out.map Prod.fst ↔ (s.data.get? url).isSome ∧
      q.passes (v.breaker.any fun b => url ∈ b.blockedUrls v.monotonic) = true := by
  have hright := rightReport_of_mem h
  rw [List.mem_map]
  constructor
  · rintro ⟨p, hp, rfl⟩
    obtain ⟨⟨e, he, hrow, hpass⟩, -⟩ := (hright.rows p).mp hp
    rw [hrow] at hpass
    exact ⟨by simp [he], hpass⟩
  · rintro ⟨htracked, hpass⟩
    obtain ⟨e, he⟩ := Option.isSome_iff_exists.mp htracked
    refine ⟨(url, statsRow w v q url e), (hright.rows _).mpr ⟨⟨e, he, rfl, hpass⟩, ?_⟩, rfl⟩
    rw [hlimit]
    rintro n ⟨⟩

theorem report_eq_of_perm (hperm : s'.data.entries.Perm s.data.entries) (hsort : q.sortBy = some .url) :
    (statsReport w v q s').1 = (statsReport w v q s).1 := by
  have hrank : q.ranking.rank (statsRows w v q s') = q.ranking.rank (statsRows w v q s) := by
    refine Ranking.rank_eq_of_perm ((hperm.map _).filter _) fun a ha b hb hab hba => ?_
    rw [StatsQuery.ranking, hsort, Option.elim_some] at hab hba
    have hurl : a.1 = b.1 := le_antisymm (of_decide_eq_true hab) (of_decide_eq_true hba)
    exact List.inj_on_of_nodup_map nodup_keys ha hb hurl
  rw [statsReport_fst, statsReport_fst, hrank]

/-- `/proxy/stats` answers every query but one whose limit `isdigit` takes and `int` does not.  What it
answers is right; without a limit it shows just the tracked proxies that pass the filter, of which only those
that the breaker of the module blocks are called blocked, and sorted by url it does not depend on who came
first. -/
theorem statsReport_right (w : ℚ → K) (v : StatsView) (q : StatsQuery) (s : ProxyStats K) :
    (∀ out ∈ (statsReport w v q s).1, RightReport w v q s out ∧
      (q.maxRows = some none → ∀ url, url ∈ out.map Prod.fst ↔ (s.data.get? url).isSome ∧
        q.passes (v.breaker.any fun b => url ∈ b.blockedUrls v.monotonic) = true)) ∧
    ((statsReport w v q s).1 = none ↔ PyText.isdigit (q.limit.getD []) = true ∧
      ((∃ c ∈ q.limit.getD [], PyText.isDigit c = false) ∨
        PyText.maxStrDigits < (q.limit.getD []).length)) ∧
    ∀ s', s'.data.entries.Perm s.data.entries → q.sortBy = some .url →
      (statsReport w v q s').1 = (statsReport w v q s).1 := by
  refine ⟨fun out h => ⟨rightReport_of_mem h, mem_report_iff h⟩, ?_,
    fun s' hperm hsort => report_eq_of_perm hperm hsort⟩
  rw [statsReport_fst, Option.map_eq_none_iff, maxRows_eq_none]

end Report

/-- A superscript two is a digit for `isdigit` only. -/
example : StatsQuery.maxRows ⟨none, none, none, some ['\u00b2']⟩ = none := by decide +kernel

end ProxySplit
