import ProxySplit.Lib.Dict
import Mathlib.Data.Rat.Defs

namespace ProxySplit

open Lib

abbrev Url := String

/-- The two clocks a call reads: `time.monotonic()` and `time.time()`. -/
structure Clock where
  monotonic : ℚ
  time : ℚ
  deriving DecidableEq

/-- `deque(maxlen=n).append`. -/
def appendMax (n : Nat) (l : List α) (x : α) : List α :=
  (l ++ [x]).drop ((l ++ [x]).length - n)

theorem mem_appendMax {n : Nat} {l : List α} {x y : α} (h : y ∈ appendMax n l x) : y ∈ l ∨ y = x := by
  rcases List.mem_append.mp (List.mem_of_mem_drop h) with hold | hnew
  · exact .inl hold
  · exact .inr (List.mem_singleton.mp hnew)

/-- One entry of `ProxyStats._data`.  `K` is the type scores are computed in. -/
structure StatsEntry (K : Type) where
  success : Nat
  failure : Nat
  bytesTransferred : Nat
  consecutiveFailures : Nat
  latencyMs : List (ℚ × ℚ)
  events : List (ℚ × Bool × ℚ)
  scoreCache : Option K
  deriving DecidableEq

def StatsEntry.fresh : StatsEntry K := ⟨0, 0, 0, 0, [], [], none⟩

structure ProxyStats (K : Type) where
  data : Dict Url (StatsEntry K)
  deriving DecidableEq

namespace ProxyStats

def empty : ProxyStats K := ⟨.empty⟩

def entry (s : ProxyStats K) (url : Url) : StatsEntry K := (s.data.get? url).getD .fresh

def update (s : ProxyStats K) (url : Url) (f : StatsEntry K → StatsEntry K) : ProxyStats K :=
  ⟨s.data.set url (f (s.entry url))⟩

def recordSuccess (s : ProxyStats K) (now : ℚ) (url : Url) (nbytes : Nat) (latencyMs : ℚ) :
    ProxyStats K :=
  s.update url fun e => { e with
    success := e.success + 1
    bytesTransferred := e.bytesTransferred + nbytes
    latencyMs := appendMax 100 e.latencyMs (now, latencyMs)
    consecutiveFailures := 0
    events := appendMax 1000 e.events (now, true, latencyMs)
    scoreCache := none }

def recordFailure (s : ProxyStats K) (now : ℚ) (url : Url) : ProxyStats K × Nat :=
  let s' := s.update url fun e => { e with
    failure := e.failure + 1
    consecutiveFailures := e.consecutiveFailures + 1
    events := appendMax 1000 e.events (now, false, 0)
    scoreCache := none }
  (s', (s'.entry url).consecutiveFailures)

def resetConsecutiveFailures (s : ProxyStats K) (url : Url) : ProxyStats K :=
  s.update url fun e => { e with consecutiveFailures := 0 }

def seedLatency (s : ProxyStats K) (now : ℚ) (url : Url) (latencyMs : ℚ) (nbytes : Nat) :
    ProxyStats K :=
  s.update url fun e => { e with
    latencyMs := appendMax 100 e.latencyMs (now, latencyMs)
    bytesTransferred := e.bytesTransferred + nbytes
    success := e.success + 1
    events := appendMax 1000 e.events (now, true, latencyMs)
    scoreCache := none }

/-- What a read that goes through `_entry` leaves behind. -/
def readEntry (s : ProxyStats K) (url : Url) : ProxyStats K := s.update url id

def evict (s : ProxyStats K) (url : Url) : ProxyStats K := ⟨s.data.erase url⟩

/-- The count `STATS.get_consecutive_failures` returns. -/
def consecutiveFailures (s : ProxyStats K) (url : Url) : Nat := (s.entry url).consecutiveFailures

@[simp] theorem entry_update (s : ProxyStats K) (url u : Url) (f : StatsEntry K → StatsEntry K) :
    (s.update url f).entry u = if u = url then f (s.entry url) else s.entry u := by
  simp only [entry, update, Dict.get?_set]
  split <;> rfl

@[simp] theorem consecutiveFailures_recordSuccess (s : ProxyStats K) (now : ℚ) (url u : Url)
    (n : Nat) (lat : ℚ) : (s.recordSuccess now url n lat).consecutiveFailures u =
      if u = url then 0 else s.consecutiveFailures u := by
  simp only [consecutiveFailures, recordSuccess, entry_update]
  split <;> rfl

@[simp] theorem consecutiveFailures_recordFailure (s : ProxyStats K) (now : ℚ) (url u : Url) :
    (s.recordFailure now url).1.consecutiveFailures u =
      if u = url then s.consecutiveFailures url + 1 else s.consecutiveFailures u := by
  simp only [consecutiveFailures, recordFailure, entry_update]
  split <;> rfl

@[simp] theorem recordFailure_snd (s : ProxyStats K) (now : ℚ) (url : Url) :
    (s.recordFailure now url).2 = s.consecutiveFailures url + 1 := by
  simp [consecutiveFailures, recordFailure]

@[simp] theorem consecutiveFailures_reset (s : ProxyStats K) (url u : Url) :
    (s.resetConsecutiveFailures url).consecutiveFailures u =
      if u = url then 0 else s.consecutiveFailures u := by
  simp only [consecutiveFailures, resetConsecutiveFailures, entry_update]
  split <;> rfl

@[simp] theorem consecutiveFailures_evict (s : ProxyStats K) (url u : Url) :
    (s.evict url).consecutiveFailures u = if u = url then 0 else s.consecutiveFailures u := by
  simp only [consecutiveFailures, entry, evict, Dict.get?_erase]
  split <;> rfl

end ProxyStats

end ProxySplit
