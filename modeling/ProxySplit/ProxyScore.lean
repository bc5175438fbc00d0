import ProxySplit.ProxyStats
import ProxySplit.Lib.Quantile
import ProxySplit.Lib.Machine
import Mathlib.Data.Rat.Floor
import Mathlib.Data.Rat.Cast.Order
import Mathlib.Analysis.SpecialFunctions.Log.Basic

namespace ProxySplit

open Lib

variable {K : Type} [Field K] [LinearOrder K]

def totalWeight (pairs : List (K × K)) : K := (pairs.map Prod.snd).sum

/-- `avg_ms`, over latencies with their weights. -/
def average (pairs : List (K × K)) : K := (pairs.map fun a => a.2 * a.1).sum / totalWeight pairs

def p95 (pairs : List (K × K)) : K :=
  let sorted := pairs.mergeSort fun a b => a.1 ≤ b.1
  scan (95 / 100 * totalWeight pairs) ((sorted.getLast?.map Prod.fst).getD 0) 0 sorted

def blend (pairs : List (K × K)) : K :=
  if totalWeight pairs ≤ 0 then (pairs.map Prod.fst).sum / pairs.length
  else if 5 ≤ pairs.length then 6 / 10 * average pairs + 4 / 10 * p95 pairs
  else average pairs

namespace StatsEntry

def successRate (e : StatsEntry K) : K :=
  let total := e.success + e.failure
  if total = 0 then 1 / 2 else e.success / total

def decayWeight (w : ℚ → K) (ts now : ℚ) : K := w (max 0 (now - ts))

def weighted (w : ℚ → K) (now : ℚ) (e : StatsEntry K) : List (K × K) :=
  e.latencyMs.map fun sample => ((sample.2 : K), decayWeight w sample.1 now)

/-- The score that `_score` computes when there is none in the cache. -/
def freshScore (w : ℚ → K) (now : ℚ) (e : StatsEntry K) : K :=
  if e.latencyMs = [] then e.successRate / 2 else e.successRate / (1 + blend (e.weighted w now) / 1000)

def score (w : ℚ → K) (now : ℚ) (e : StatsEntry K) : K := e.scoreCache.getD (e.freshScore w now)

/-- What `_score` leaves behind. -/
def scored (w : ℚ → K) (now : ℚ) (e : StatsEntry K) : StatsEntry K :=
  { e with scoreCache := some (e.score w now) }

def latencies (e : StatsEntry K) : List K := e.latencyMs.map fun sample => (sample.2 : K)

end StatsEntry

/-- The weight of a sample by its age.  It decays at the same rate at every age. -/
structure DecayWeight (K : Type) [Field K] [LinearOrder K] where
  weight : ℚ → K
  -- In exact arithmetic; the `float` of the source is 0.0 after some 3.7 days.
  pos : ∀ a, 0 ≤ a → 0 < weight a
  add : ∀ a b, 0 ≤ a → 0 ≤ b → weight (a + b) = weight a * weight b

/-- The weight of the source: half of it is lost in every `_LATENCY_HALFLIFE_S`. -/
noncomputable def halfLife : DecayWeight ℝ where
  weight a := Real.exp (-a * Real.log 2 / 300)
  pos _ _ := Real.exp_pos _
  add a b _ _ := by
    rw [← Real.exp_add]
    congr 1
    push_cast
    ring

/-- `int(x)`. -/
def truncate [FloorRing K] (x : K) : Int := if 0 ≤ x then ⌊x⌋ else ⌈x⌉

def roundTo [FloorRing K] (digits : Nat) (x : K) : K :=
  let y := x * 10 ^ digits
  let nearest : Int :=
    if y - ⌊y⌋ < 1 / 2 then ⌊y⌋
    else if 1 / 2 < y - ⌊y⌋ then ⌊y⌋ + 1
    else if ⌊y⌋ % 2 = 0 then ⌊y⌋ else ⌊y⌋ + 1
  nearest / 10 ^ digits

/-- `median_score`, of scores in order. -/
def median (scores : List K) : K :=
  let mid := scores.length / 2
  if scores.length % 2 = 1 then scores.getD mid 0 else (scores.getD (mid - 1) 0 + scores.getD mid 0) / 2

/-- What `_windowed` returns. -/
structure WindowRow (K : Type) where
  success : Nat
  failure : Nat
  successRate : Option K
  avgLatencyMs : Option K
  eventsInWindow : Nat

structure SnapshotRow (K : Type) where
  success : Nat
  failure : Nat
  successRate : Option K
  consecutiveFailures : Nat
  bytesTransferred : Nat
  avgLatencyMs : Option K
  p95LatencyMs : Option K
  score : K
  throughputBps : K
  window : Option (WindowRow K)

structure PrometheusRow (K : Type) where
  success : Nat
  failure : Nat
  bytes : Nat
  latencyAvgMs : K
  score : K
  throughputBps : K
  banned : Bool

namespace ProxyStats

def getConsecutiveFailures (s : ProxyStats K) (url : Url) : Nat × ProxyStats K :=
  (s.consecutiveFailures url, s.readEntry url)

def score (w : ℚ → K) (now : ℚ) (s : ProxyStats K) (url : Url) : K × ProxyStats K :=
  match s.data.get? url with
  | none => (1 / 2, s)
  | some e => (e.score w now, s.update url (·.scored w now))

def freshScore (w : ℚ → K) (now : ℚ) (s : ProxyStats K) (url : Url) : K :=
  (s.data.get? url).elim (1 / 2) (·.freshScore w now)

def successRate (s : ProxyStats K) (url : Url) : K :=
  match s.data.get? url with
  | none => 1 / 2
  | some e => e.successRate

def throughput (s : ProxyStats K) (url : Url) : K :=
  match s.data.get? url with
  | none => 0
  | some e =>
    if e.latencies = [] then 0 else e.bytesTransferred / (e.latencies.sum / 1000 + 1 / 10 ^ 9)

def scoreAll (w : ℚ → K) (now : ℚ) (s : ProxyStats K) : ProxyStats K := ⟨s.data.mapValues (·.scored w now)⟩

def scoresSnapshot (w : ℚ → K) (now : ℚ) (s : ProxyStats K) : Dict Url K × ProxyStats K :=
  (s.data.mapValues (·.score w now), s.scoreAll w now)

section Rounded

variable [FloorRing K]

def chunkSize (scores : List K) (myScore : K) (baseSize minimum maximum : Int) : Int :=
  if scores = [] then baseSize
  else if median scores ≤ 0 then baseSize
  else max minimum (min maximum (truncate (baseSize * (myScore / median scores))))

def perProxyChunkSize (w : ℚ → K) (now : ℚ) (s : ProxyStats K) (url : Url)
    (baseSize minimum maximum : Int) : Int × ProxyStats K :=
  let allScores := (s.data.entries.map fun p => p.2.score w now).mergeSort (· ≤ ·)
  let s' := s.scoreAll w now
  (chunkSize allScores ((s'.entry url).score w now) baseSize minimum maximum,
    s'.update url (·.scored w now))

def windowed (since : ℚ) (e : StatsEntry K) : WindowRow K :=
  let evts := e.events.filter fun event => since ≤ event.1
  let succ := (evts.filter fun event => event.2.1).length
  let fail := (evts.filter fun event => ¬ event.2.1).length
  let lats : List K := (evts.filter fun event => event.2.1 ∧ 0 < event.2.2).map fun event => (event.2.2 : K)
  { success := succ
    failure := fail
    successRate := if succ + fail = 0 then none else some (roundTo 3 (succ / (succ + fail : Nat)))
    avgLatencyMs := if lats = [] then none else some (roundTo 1 (lats.sum / lats.length))
    eventsInWindow := evts.length }

def snapshotRow (w : ℚ → K) (now : ℚ) (windowMinutes : ℚ) (e : StatsEntry K) : SnapshotRow K :=
  let lats := e.latencies
  let total := e.success + e.failure
  { success := e.success
    failure := e.failure
    successRate := if total = 0 then none else some (roundTo 3 (e.success / total))
    consecutiveFailures := e.consecutiveFailures
    bytesTransferred := e.bytesTransferred
    avgLatencyMs := if lats = [] then none else some (roundTo 1 (lats.sum / lats.length))
    p95LatencyMs :=
      if 5 ≤ lats.length then some (roundTo 1 ((lats.mergeSort (· ≤ ·)).getD (lats.length * 95 / 100) 0))
      else none
    score := roundTo 4 (e.score w now)
    throughputBps :=
      if lats = [] then 0 else roundTo 0 (e.bytesTransferred / (lats.sum / 1000 + 1 / 10 ^ 9))
    window := if windowMinutes = 0 then none else some (windowed (now - windowMinutes * 60) e) }

def snapshot (w : ℚ → K) (now : ℚ) (s : ProxyStats K) (windowMinutes : Option ℚ) :
    Dict Url (SnapshotRow K) × ProxyStats K :=
  (s.data.mapValues (snapshotRow w now (windowMinutes.getD 0)), s.scoreAll w now)

def prometheusRow (w : ℚ → K) (now : ℚ) (bannedUrls : List Url) (p : Url × StatsEntry K) :
    Url × PrometheusRow K :=
  let lats := p.2.latencies
  (p.1,
    { success := p.2.success
      failure := p.2.failure
      bytes := p.2.bytesTransferred
      latencyAvgMs := roundTo 1 (if lats = [] then 0 else lats.sum / lats.length)
      score := roundTo 4 (p.2.score w now)
      throughputBps :=
        roundTo 0 (if lats = [] then 0 else p.2.bytesTransferred / (lats.sum / 1000 + 1 / 10 ^ 9))
      banned := p.1 ∈ bannedUrls })

/-- `prometheus_lines`, without the rendering of the numbers. -/
def prometheusLines (w : ℚ → K) (now : ℚ) (s : ProxyStats K) (bannedUrls : List Url) :
    List (Url × PrometheusRow K) × ProxyStats K :=
  (s.data.entries.map (prometheusRow w now bannedUrls), s.scoreAll w now)

inductive Read
  | getConsecutiveFailures (url : Url)
  | score (url : Url)
  | successRate (url : Url)
  | throughput (url : Url)
  | perProxyChunkSize (url : Url) (baseSize minimum maximum : Int)
  | scoresSnapshot
  | snapshot (windowMinutes : Option ℚ)
  | prometheusLines (bannedUrls : List Url)

def read (w : ℚ → K) (now : ℚ) (s : ProxyStats K) : Read → ProxyStats K
  | .getConsecutiveFailures url => (s.getConsecutiveFailures url).2
  | .score url => (s.score w now url).2
  | .successRate _ | .throughput _ => s
  | .perProxyChunkSize url baseSize minimum maximum =>
    (s.perProxyChunkSize w now url baseSize minimum maximum).2
  | .scoresSnapshot => (s.scoresSnapshot w now).2
  | .snapshot windowMinutes => (s.snapshot w now windowMinutes).2
  | .prometheusLines bannedUrls => (s.prometheusLines w now bannedUrls).2

/-- The url that a read looks up by `_entry`. -/
def Read.viaEntry : Read → Option Url
  | .getConsecutiveFailures url | .perProxyChunkSize url .. => some url
  | .score _ | .successRate _ | .throughput _ | .scoresSnapshot | .snapshot _ | .prometheusLines _ => none

end Rounded

/-- All that can be read of the statistics is the same. -/
structure SameReadings (w : ℚ → K) (now : ℚ) (s s' : ProxyStats K) : Prop where
  score : ∀ url, (s'.score w now url).1 = (s.score w now url).1
  successRate : ∀ url, s'.successRate url = s.successRate url
  throughput : ∀ url, s'.throughput url = s.throughput url
  scoresSnapshot : (s'.scoresSnapshot w now).1 = (s.scoresSnapshot w now).1
  tracked : s'.data.keys = s.data.keys

section Reads

variable {w : ℚ → K} {now : ℚ} {s s' : ProxyStats K} {url : Url} {e : StatsEntry K}

def unmemoised (w : ℚ → K) (now : ℚ) (e : StatsEntry K) : K × StatsEntry K :=
  (e.score w now, { e with scoreCache := none })

theorem unmemoised_scored : unmemoised w now (e.scored w now) = unmemoised w now e := rfl

theorem unmemoised_scoreAll :
    (s.scoreAll w now).data.mapValues (unmemoised w now) = s.data.mapValues (unmemoised w now) := by
  refine Dict.ext_entries ?_
  simp only [scoreAll, Dict.mapValues, List.map_map]
  rfl

theorem unmemoised_update {f : StatsEntry K → StatsEntry K} (h : (s.data.get? url).isSome)
    (hf : ∀ e, unmemoised w now (f e) = unmemoised w now e) :
    (s.update url f).data.mapValues (unmemoised w now) = s.data.mapValues (unmemoised w now) := by
  obtain ⟨e, he⟩ := Option.isSome_iff_exists.mp h
  have hentry : s.entry url = e := by rw [entry, he]; rfl
  rw [update, Dict.mapValues_set, hf, hentry]
  exact Dict.set_of_get? (by rw [Dict.get?_mapValues, he]; rfl)

theorem score_unmemoised : (s.score w now url).1 =
    ((s.data.get? url).map (unmemoised w now)).elim (1 / 2) Prod.fst := by
  rw [score]
  cases s.data.get? url with
  | none => rfl
  | some e => rfl

variable (w now) in
theorem successRate_unmemoised : s.successRate url =
    ((s.data.get? url).map (unmemoised w now)).elim (1 / 2) fun v => v.2.successRate := by
  rw [successRate]
  cases s.data.get? url with
  | none => rfl
  | some e => rfl

variable (w now) in
theorem throughput_unmemoised : s.throughput url =
    ((s.data.get? url).map (unmemoised w now)).elim 0 fun v => if v.2.latencies = [] then 0
      else v.2.bytesTransferred / (v.2.latencies.sum / 1000 + 1 / 10 ^ 9) := by
  rw [throughput]
  cases s.data.get? url with
  | none => rfl
  | some e => rfl

theorem scoresSnapshot_unmemoised : (s.scoresSnapshot w now).1 =
    (s.data.mapValues (unmemoised w now)).mapValues Prod.fst := by
  refine Dict.ext_entries ?_
  simp only [scoresSnapshot, Dict.mapValues, List.map_map]
  rfl

theorem sameReadings_of_unmemoised
    (h : s'.data.mapValues (unmemoised w now) = s.data.mapValues (unmemoised w now)) :
    SameReadings w now s s' := by
  have hget : ∀ url, (s'.data.get? url).map (unmemoised w now) =
      (s.data.get? url).map (unmemoised w now) := by
    intro url
    rw [← Dict.get?_mapValues, h, Dict.get?_mapValues]
  constructor
  case score => exact fun url => by rw [score_unmemoised, hget, ← score_unmemoised]
  case successRate =>
    exact fun url => by rw [successRate_unmemoised w now, hget, ← successRate_unmemoised]
  case throughput =>
    exact fun url => by rw [throughput_unmemoised w now, hget, ← throughput_unmemoised]
  case scoresSnapshot => rw [scoresSnapshot_unmemoised, h, ← scoresSnapshot_unmemoised]
  case tracked => rw [← Dict.keys_mapValues (unmemoised w now), h, Dict.keys_mapValues]

variable [FloorRing K]

theorem isSome_get?_read {r : Read} (h : r.viaEntry = some url) :
    ((s.read w now r).data.get? url).isSome := by
  cases r with
  | getConsecutiveFailures u | perProxyChunkSize u =>
    cases h
    exact (Dict.isSome_get?_set ..).mpr (.inl rfl)
  | score | successRate | throughput | scoresSnapshot | snapshot | prometheusLines => cases h

theorem unmemoised_read {r : Read} (h : ∀ url, r.viaEntry = some url → (s.data.get? url).isSome) :
    (s.read w now r).data.mapValues (unmemoised w now) = s.data.mapValues (unmemoised w now) := by
  cases r with
  | getConsecutiveFailures url => exact unmemoised_update (h url rfl) fun _ => rfl
  | score url =>
    rw [read, score]
    cases he : s.data.get? url with
    | none => rfl
    | some e => exact unmemoised_update (by rw [he]; rfl) fun _ => rfl
  | successRate | throughput => rfl
  | perProxyChunkSize url =>
    have htracked : ((s.scoreAll w now).data.get? url).isSome := by
      rw [scoreAll, Dict.get?_mapValues, Option.isSome_map]
      exact h url rfl
    exact (unmemoised_update htracked fun _ => unmemoised_scored).trans unmemoised_scoreAll
  | scoresSnapshot | snapshot | prometheusLines => exact unmemoised_scoreAll

/-- Reading changes nothing that can be read exactly when it makes no new entry. -/
theorem sameReadings_iff (w : ℚ → K) (now : ℚ) (s : ProxyStats K) (r : Read) :
    SameReadings w now s (s.read w now r) ↔
      ∀ url, r.viaEntry = some url → (s.data.get? url).isSome := by
  constructor
  · intro h url hurl
    have hmem : url ∈ s.data.keys := by
      rw [← h.tracked, Dict.mem_keys_iff]
      exact Option.isSome_iff_exists.mp (isSome_get?_read hurl)
    exact Option.isSome_iff_exists.mpr ((Dict.mem_keys_iff ..).mp hmem)
  · exact fun h => sameReadings_of_unmemoised (unmemoised_read h)

/-- Asking for the failures of an unknown proxy halves its score. -/
theorem not_sameReadings_unknown : ¬ SameReadings (fun _ => (1 : ℚ)) 0 empty
    ((empty : ProxyStats ℚ).read (fun _ => 1) 0 (.getConsecutiveFailures "http://10.0.0.1:8080")) := by
  intro h
  have hscore := h.score "http://10.0.0.1:8080"
  revert hscore
  decide +kernel

end Reads

end ProxyStats

end ProxySplit
