import ProxySplit.Lib.Machine
import ProxySplit.ProxyStats
import Mathlib.Algebra.Order.Field.Rat
import Mathlib.Tactic.Linarith

namespace ProxySplit

open Lib

/-- `_CB_CLOSED`, `_CB_OPEN`, `_CB_HALF_OPEN`. -/
inductive CBState
  | closed | opened | halfOpen
  deriving DecidableEq

structure BreakerEntry where
  state : CBState
  strike : Nat
  openUntil : ℚ
  bannedAt : Option ℚ
  reason : String
  deriving DecidableEq

def BreakerEntry.fresh : BreakerEntry := ⟨.closed, 0, 0, none, ""⟩

/-- `probeEvents` names the `threading.Event` a half-open url's waiters sit on by its
place in `events`, which holds for every event made so far whether it has been set. -/
structure CircuitBreaker where
  threshold : Nat
  baseDelay : ℚ
  maxDelay : ℚ
  breakers : Dict Url BreakerEntry
  probeEvents : Dict Url Nat
  events : List Bool
  deriving DecidableEq

/-- What the first locked section of `allow_request` decides. -/
inductive AllowStep
  | answer (b : Bool)
  | wait (event : Nat)
  deriving DecidableEq

namespace CircuitBreaker

def new (threshold : Nat) (baseDelay maxDelay : ℚ) : CircuitBreaker :=
  ⟨threshold, baseDelay, maxDelay, .empty, .empty, []⟩

def entry (b : CircuitBreaker) (url : Url) : BreakerEntry := (b.breakers.get? url).getD .fresh

def stateFor (b : CircuitBreaker) (url : Url) : CBState := (b.entry url).state

def strike (b : CircuitBreaker) (url : Url) : Nat := (b.entry url).strike

def openUntil (b : CircuitBreaker) (url : Url) : ℚ := (b.entry url).openUntil

/-- `delay` of `_open` for the strike just counted. -/
def delay (b : CircuitBreaker) (strike : Nat) : ℚ :=
  min (b.baseDelay * 2 ^ (strike - 1)) b.maxDelay

/-- `_open`. -/
def openBan (b : CircuitBreaker) (clk : Clock) (url : Url) (reason : String) : CircuitBreaker :=
  let strike := b.strike url + 1
  let e : BreakerEntry :=
    ⟨.opened, strike, clk.monotonic + b.delay strike, some clk.time, reason⟩
  { b with breakers := b.breakers.set url e }

/-- `evt = self._probe_events.pop(url, None)`, then `evt.set()`. -/
def settle (b : CircuitBreaker) (url : Url) : CircuitBreaker :=
  match b.probeEvents.get? url with
  | none => b
  | some ev => { b with probeEvents := b.probeEvents.erase url, events := b.events.set ev true }

/-- What `record_success` does to the entry of a half-open url. -/
def close (b : CircuitBreaker) (url : Url) : CircuitBreaker :=
  let e := { b.entry url with state := .closed, strike := 0, reason := "" }
  { b with breakers := b.breakers.set url e }

/-- The reason `record_failure` gives when its caller names none. -/
def defaultReason : String := "consecutive failures"

def recordFailure (b : CircuitBreaker) (clk : Clock) (url : Url) (consecutive : Nat)
    (reason : String) : CircuitBreaker :=
  if consecutive < b.threshold then b
  else match b.stateFor url with
    | .closed | .halfOpen => (b.openBan clk url reason).settle url
    | .opened => b

def recordSuccess (b : CircuitBreaker) (stats : ProxyStats K) (url : Url) :
    CircuitBreaker × ProxyStats K :=
  match b.stateFor url with
  | .halfOpen => ((b.close url).settle url, stats.resetConsecutiveFailures url)
  | .closed | .opened => (b, stats)

def takeProbe (b : CircuitBreaker) (url : Url) : CircuitBreaker :=
  let e := { b.entry url with state := .halfOpen }
  { b with
    breakers := b.breakers.set url e
    probeEvents := b.probeEvents.set url b.events.length
    events := b.events ++ [false] }

/-- The first locked section of `allow_request`. -/
def allowEnter (b : CircuitBreaker) (now : ℚ) (url : Url) : AllowStep × CircuitBreaker :=
  match b.stateFor url with
  | .closed => (.answer true, b)
  | .opened =>
    if now < b.openUntil url then (.answer false, b)
    else (.answer true, b.takeProbe url)
  | .halfOpen =>
    match b.probeEvents.get? url with
    | none => (.answer (b.stateFor url = .closed), b)
    | some ev => (.wait ev, b)

/-- The second locked section of `allow_request`, after the wait. -/
def allowResume (b : CircuitBreaker) (url : Url) : Bool := b.stateFor url = .closed

def blockedUrls (b : CircuitBreaker) (now : ℚ) : List Url :=
  (b.breakers.entries.filter fun p => p.2.state = .opened ∧ now < p.2.openUntil).map Prod.fst

def expiredOpen (b : CircuitBreaker) (now : ℚ) : List Url :=
  (b.breakers.entries.filter fun p => p.2.state = .opened ∧ p.2.openUntil ≤ now).map Prod.fst

def release (b : CircuitBreaker) (stats : ProxyStats K) (url : Url) :
    CircuitBreaker × ProxyStats K :=
  let b' := match b.breakers.get? url with
    | none => b
    | some e => { b with breakers := b.breakers.set url { e with state := .closed, strike := 0 } }
  (b'.settle url, stats.resetConsecutiveFailures url)

@[simp] theorem breakers_settle (b : CircuitBreaker) (url : Url) :
    (b.settle url).breakers = b.breakers := by
  unfold settle; split <;> rfl

@[simp] theorem entry_settle (b : CircuitBreaker) (url u : Url) :
    (b.settle url).entry u = b.entry u := by simp [entry]

@[simp] theorem stateFor_settle (b : CircuitBreaker) (url u : Url) :
    (b.settle url).stateFor u = b.stateFor u := by simp [stateFor]

theorem get?_probeEvents_settle (b : CircuitBreaker) (url u : Url) :
    (b.settle url).probeEvents.get? u = if u = url then none else b.probeEvents.get? u := by
  unfold settle
  split
  · next h =>
    split
    · next hu => rw [hu, h]
    · rfl
  · exact Dict.get?_erase ..

@[simp] theorem length_events_settle (b : CircuitBreaker) (url : Url) :
    (b.settle url).events.length = b.events.length := by
  unfold settle; split <;> simp

theorem events_settle {b : CircuitBreaker} {url : Url} {ev : Nat}
    (h : b.probeEvents.get? url = some ev) (hlt : ev < b.events.length) :
    (b.settle url).events[ev]? = some true := by
  simp [settle, h, hlt]

def parameters (b : CircuitBreaker) : Nat × ℚ × ℚ := (b.threshold, b.baseDelay, b.maxDelay)

@[simp] theorem parameters_settle (b : CircuitBreaker) (url : Url) :
    (b.settle url).parameters = b.parameters := by
  unfold settle; split <;> rfl

@[simp] theorem parameters_openBan (b : CircuitBreaker) (clk : Clock) (url : Url)
    (reason : String) : (b.openBan clk url reason).parameters = b.parameters := rfl

@[simp] theorem parameters_recordFailure (b : CircuitBreaker) (clk : Clock) (url : Url) (c : Nat)
    (reason : String) : (b.recordFailure clk url c reason).parameters = b.parameters := by
  unfold recordFailure
  split
  · rfl
  · split <;> simp

@[simp] theorem parameters_recordSuccess (b : CircuitBreaker) (stats : ProxyStats K) (url : Url) :
    (b.recordSuccess stats url).1.parameters = b.parameters := by
  unfold recordSuccess
  split
  · exact parameters_settle ..
  · rfl
  · rfl

@[simp] theorem parameters_allowEnter (b : CircuitBreaker) (now : ℚ) (url : Url) :
    (b.allowEnter now url).2.parameters = b.parameters := by
  unfold allowEnter
  split
  · rfl
  · split <;> rfl
  · split <;> rfl

@[simp] theorem parameters_release (b : CircuitBreaker) (stats : ProxyStats K) (url : Url) :
    (b.release stats url).1.parameters = b.parameters := by
  unfold release
  rw [parameters_settle]
  split <;> rfl

@[simp] theorem entry_set (b : CircuitBreaker) (url u : Url) (e : BreakerEntry) :
    entry { b with breakers := b.breakers.set url e } u = if u = url then e else b.entry u := by
  simp only [entry, Dict.get?_set]
  split <;> rfl

@[simp] theorem entry_close (b : CircuitBreaker) (url u : Url) :
    (b.close url).entry u = if u = url then
      { b.entry url with state := .closed, strike := 0, reason := "" } else b.entry u := entry_set ..

@[simp] theorem entry_takeProbe (b : CircuitBreaker) (url u : Url) :
    (b.takeProbe url).entry u = if u = url then
      { b.entry url with state := .halfOpen } else b.entry u := entry_set ..

@[simp] theorem entry_openBan (b : CircuitBreaker) (clk : Clock) (url u : Url) (reason : String) :
    (b.openBan clk url reason).entry u = if u = url then
      ⟨.opened, b.strike url + 1, clk.monotonic + b.delay (b.strike url + 1), some clk.time, reason⟩
      else b.entry u := entry_set ..

theorem recordFailure_of_lt {b : CircuitBreaker} {clk : Clock} {url : Url} {c : Nat} {r : String}
    (h : c < b.threshold) : b.recordFailure clk url c r = b := if_pos h

theorem recordFailure_of_opened {b : CircuitBreaker} {clk : Clock} {url : Url} {c : Nat}
    {r : String} (h : b.stateFor url = .opened) : b.recordFailure clk url c r = b := by
  simp [recordFailure, h]

theorem recordFailure_of_not_opened {b : CircuitBreaker} {clk : Clock} {url : Url} {c : Nat}
    {r : String} (hc : b.threshold ≤ c) (h : b.stateFor url ≠ .opened) :
    b.recordFailure clk url c r = (b.openBan clk url r).settle url := by
  simp only [recordFailure, if_neg (not_lt.mpr hc)]
  cases hs : b.stateFor url with
  | opened => exact absurd hs h
  | closed => rfl
  | halfOpen => rfl

theorem recordSuccess_of_halfOpen {b : CircuitBreaker} {stats : ProxyStats K} {url : Url}
    (h : b.stateFor url = .halfOpen) : b.recordSuccess stats url =
      ((b.close url).settle url, stats.resetConsecutiveFailures url) := by
  simp [recordSuccess, h]

theorem recordSuccess_of_not_halfOpen {b : CircuitBreaker} {stats : ProxyStats K} {url : Url}
    (h : b.stateFor url ≠ .halfOpen) : b.recordSuccess stats url = (b, stats) := by
  unfold recordSuccess
  split <;> first | rfl | contradiction

/-- A call of `allow_request` either leaves the breaker as it was, or the url was OPEN with its
ban run out and the caller is now the probe. -/
theorem allowEnter_cases (b : CircuitBreaker) (now : ℚ) (url : Url) :
    (b.allowEnter now url).2 = b ∨
      (b.stateFor url = .opened ∧ b.openUntil url ≤ now ∧
        b.allowEnter now url = (.answer true, b.takeProbe url)) := by
  unfold allowEnter
  cases hs : b.stateFor url with
  | closed => exact .inl rfl
  | opened =>
    by_cases hnow : now < b.openUntil url
    · exact .inl (by simp [hnow])
    · exact .inr ⟨rfl, not_lt.mp hnow, by simp [hnow]⟩
  | halfOpen => left; simp only; split <;> rfl

theorem halfOpen_of_recordFailure {b : CircuitBreaker} {clk : Clock} {url u : Url} {c : Nat}
    {r : String} (h : (b.recordFailure clk url c r).stateFor u = .halfOpen) :
    b.stateFor u = .halfOpen := by
  by_cases hc : c < b.threshold
  · rwa [recordFailure_of_lt hc] at h
  by_cases hopen : b.stateFor url = .opened
  · rwa [recordFailure_of_opened hopen] at h
  rw [recordFailure_of_not_opened (not_lt.mp hc) hopen, stateFor_settle, stateFor, entry_openBan] at h
  split at h
  · cases h
  · exact h

theorem halfOpen_of_recordSuccess {b : CircuitBreaker} {stats : ProxyStats K} {url u : Url}
    (h : (b.recordSuccess stats url).1.stateFor u = .halfOpen) : b.stateFor u = .halfOpen := by
  by_cases hs : b.stateFor url = .halfOpen
  · rw [recordSuccess_of_halfOpen hs, stateFor_settle, stateFor, entry_close] at h
    split at h
    · cases h
    · exact h
  · rwa [recordSuccess_of_not_halfOpen hs] at h

theorem stateFor_release (b : CircuitBreaker) (stats : ProxyStats K) (url u : Url) :
    (b.release stats url).1.stateFor u = if u = url then .closed else b.stateFor u := by
  unfold release
  rw [stateFor_settle]
  split
  · next h =>
    split
    · next hu => simp [stateFor, entry, hu, h, BreakerEntry.fresh]
    · rfl
  · simp only [stateFor, entry_set]
    split <;> rfl

theorem mem_urls_filter (b : CircuitBreaker) {q : BreakerEntry → Bool} (hq : q .fresh = false)
    (url : Url) : url ∈ (b.breakers.entries.filter fun p => q p.2).map Prod.fst ↔
      q (b.entry url) = true := by
  simp only [List.mem_map, List.mem_filter, Prod.exists, exists_and_right, exists_eq_right, entry]
  constructor
  · rintro ⟨e, hmem, he⟩
    rw [(b.breakers.mem_entries_iff url e).mp hmem]
    exact he
  · intro h
    cases hg : b.breakers.get? url with
    | none =>
      rw [hg, Option.getD_none, hq] at h
      cases h
    | some e =>
      rw [hg] at h
      exact ⟨e, (b.breakers.mem_entries_iff url e).mpr hg, h⟩

theorem mem_blockedUrls (b : CircuitBreaker) (now : ℚ) (url : Url) :
    url ∈ b.blockedUrls now ↔ b.stateFor url = .opened ∧ now < b.openUntil url :=
  (b.mem_urls_filter (q := fun e => e.state = .opened ∧ now < e.openUntil) rfl url).trans
    decide_eq_true_iff

theorem delay_pos {b : CircuitBreaker} (hb : 0 < b.baseDelay) (hm : 0 < b.maxDelay) (n : Nat) :
    0 < b.delay n := lt_min (mul_pos hb (pow_pos two_pos _)) hm

/-- What reaching the threshold promises: the url is blocked at once, and a url that was not
blocked has one more strike and a ban of the length that strike calls for. -/
def Bans (b : CircuitBreaker) (clk : Clock) (url : Url) (c : Nat) (reason : String) : Prop :=
  let b' := b.recordFailure clk url c reason
  url ∈ b'.blockedUrls clk.monotonic ∧
    (url ∉ b.blockedUrls clk.monotonic →
      b'.strike url = b.strike url + 1 ∧
        b'.openUntil url - clk.monotonic =
          min (b.baseDelay * 2 ^ (b'.strike url - 1)) b.maxDelay)

/-- OPEN with a ban that has run out, and nobody has probed the url yet. -/
def ExpiredOpen (b : CircuitBreaker) (now : ℚ) (url : Url) : Prop :=
  b.stateFor url = .opened ∧ b.openUntil url ≤ now

instance (b : CircuitBreaker) (now : ℚ) (url : Url) : Decidable (b.ExpiredOpen now url) :=
  inferInstanceAs (Decidable (_ ∧ _))

theorem mem_expiredOpen (b : CircuitBreaker) (now : ℚ) (url : Url) :
    url ∈ b.expiredOpen now ↔ b.ExpiredOpen now url :=
  (b.mem_urls_filter (q := fun e => e.state = .opened ∧ e.openUntil ≤ now) rfl url).trans
    decide_eq_true_iff

theorem not_bans_of_expiredOpen {b : CircuitBreaker} {clk : Clock} {url : Url} {c : Nat}
    {reason : String} (h : b.ExpiredOpen clk.monotonic url) : ¬ b.Bans clk url c reason := by
  intro hbans
  have hin := hbans.1
  rw [recordFailure_of_opened h.1, mem_blockedUrls] at hin
  exact absurd hin.2 (not_lt.mpr h.2)

theorem bans_of_not_opened {b : CircuitBreaker} {clk : Clock} {url : Url} {c : Nat}
    {reason : String} (hb : 0 < b.baseDelay) (hm : 0 < b.maxDelay) (hc : b.threshold ≤ c)
    (h : b.stateFor url ≠ .opened) : b.Bans clk url c reason := by
  have hstep : b.recordFailure clk url c reason = (b.openBan clk url reason).settle url :=
    recordFailure_of_not_opened hc h
  have hpos := delay_pos hb hm (b.strike url + 1)
  refine ⟨?_, fun _ => ?_⟩
  · rw [hstep, mem_blockedUrls]
    simp only [stateFor, openUntil, entry_settle, entry_openBan, if_true, true_and]
    linarith
  · rw [hstep]
    simp [strike, openUntil, delay]

theorem bans_of_blocked {b : CircuitBreaker} {clk : Clock} {url : Url} {c : Nat}
    {reason : String} (h : url ∈ b.blockedUrls clk.monotonic) : b.Bans clk url c reason := by
  have hopen := ((b.mem_blockedUrls _ _).mp h).1
  refine ⟨?_, fun hnot => absurd h hnot⟩
  rwa [recordFailure_of_opened hopen]

structure ProbeInv (b : CircuitBreaker) : Prop where
  registered : ∀ url, (b.probeEvents.get? url).isSome ↔ b.stateFor url = .halfOpen
  allocated : ∀ url ev, b.probeEvents.get? url = some ev → ev < b.events.length

theorem ProbeInv.new (threshold : Nat) (base max : ℚ) : ProbeInv (new threshold base max) :=
  ⟨fun _ => by simp [CircuitBreaker.new, stateFor, entry, BreakerEntry.fresh],
    fun _ _ h => by simp [CircuitBreaker.new] at h⟩

theorem ProbeInv.settle {b b' : CircuitBreaker} {url : Url} (h : b.ProbeInv)
    (hprobe : b'.probeEvents = b.probeEvents) (hevents : b'.events = b.events)
    (hother : ∀ u, u ≠ url → b'.stateFor u = b.stateFor u)
    (hurl : b'.stateFor url ≠ .halfOpen) : (b'.settle url).ProbeInv where
  registered u := by
    rw [get?_probeEvents_settle, stateFor_settle, hprobe]
    by_cases hu : u = url
    · subst hu; simpa using hurl
    · rw [if_neg hu, hother u hu]; exact h.registered u
  allocated u ev hev := by
    rw [get?_probeEvents_settle, hprobe] at hev
    split at hev
    · cases hev
    · rw [length_events_settle, hevents]; exact h.allocated u ev hev

theorem ProbeInv.openBan {b : CircuitBreaker} (h : b.ProbeInv) (clk : Clock) (url : Url)
    (reason : String) : ((b.openBan clk url reason).settle url).ProbeInv := by
  apply h.settle
  · rfl
  · rfl
  · intro u hu; simp [stateFor, hu]
  · simp [stateFor]

theorem ProbeInv.close {b : CircuitBreaker} (h : b.ProbeInv) (url : Url) :
    ((b.close url).settle url).ProbeInv := by
  apply h.settle
  · rfl
  · rfl
  · intro u hu; simp [stateFor, hu]
  · simp [stateFor]

theorem ProbeInv.recordFailure {b : CircuitBreaker} (h : b.ProbeInv) (clk : Clock) (url : Url)
    (c : Nat) (reason : String) : (b.recordFailure clk url c reason).ProbeInv := by
  by_cases hc : c < b.threshold
  · rwa [recordFailure_of_lt hc]
  by_cases hopen : b.stateFor url = .opened
  · rwa [recordFailure_of_opened hopen]
  rw [recordFailure_of_not_opened (not_lt.mp hc) hopen]
  exact h.openBan clk url reason

theorem ProbeInv.recordSuccess {b : CircuitBreaker} (h : b.ProbeInv) (stats : ProxyStats K)
    (url : Url) : (b.recordSuccess stats url).1.ProbeInv := by
  by_cases hs : b.stateFor url = .halfOpen
  · rw [recordSuccess_of_halfOpen hs]
    exact h.close url
  · rwa [recordSuccess_of_not_halfOpen hs]

theorem ProbeInv.takeProbe {b : CircuitBreaker} (h : b.ProbeInv) (url : Url) :
    (b.takeProbe url).ProbeInv where
  registered u := by
    by_cases hu : u = url
    · simp [CircuitBreaker.takeProbe, stateFor, entry, hu]
    · simpa [CircuitBreaker.takeProbe, stateFor, entry, hu] using h.registered u
  allocated u ev hev := by
    simp only [CircuitBreaker.takeProbe, Dict.get?_set, List.length_append, List.length_cons,
      List.length_nil] at hev ⊢
    split at hev
    · cases hev; omega
    · have := h.allocated u ev hev; omega

theorem ProbeInv.allowEnter {b : CircuitBreaker} (h : b.ProbeInv) (now : ℚ) (url : Url) :
    (b.allowEnter now url).2.ProbeInv := by
  rcases b.allowEnter_cases now url with hsame | ⟨-, -, hprobe⟩
  · rwa [hsame]
  · rw [hprobe]; exact h.takeProbe url

theorem ProbeInv.release {b : CircuitBreaker} (h : b.ProbeInv) (stats : ProxyStats K)
    (url : Url) : (b.release stats url).1.ProbeInv := by
  have hstate := b.stateFor_release stats url
  unfold CircuitBreaker.release at hstate ⊢
  simp only [stateFor_settle] at hstate
  apply h.settle
  · split <;> rfl
  · split <;> rfl
  · intro u hu; simpa [hu] using hstate u
  · rw [hstate url]; simp

section Pending

structure Pending (b : CircuitBreaker) : Prop where
  unset : ∀ url ev, b.probeEvents.get? url = some ev → b.events[ev]? = some false
  distinct : ∀ url url' ev, b.probeEvents.get? url = some ev → b.probeEvents.get? url' = some ev →
    url = url'

variable {b b' : CircuitBreaker} {url : Url}

theorem Pending.new (threshold : Nat) (base max : ℚ) : Pending (new threshold base max) :=
  ⟨fun _ _ h => (by cases h), fun _ _ _ h => (by cases h)⟩

theorem Pending.getElem?_events_settle (h : b.Pending) (hprobe : b'.probeEvents = b.probeEvents)
    {u : Url} {ev : Nat} (hev : b.probeEvents.get? u = some ev) (hu : u ≠ url) :
    (b'.settle url).events[ev]? = b'.events[ev]? := by
  unfold CircuitBreaker.settle
  split
  · rfl
  · next ev' hev' =>
    have hother : ev' ≠ ev := by
      rintro rfl
      rw [hprobe] at hev'
      exact hu (h.distinct u url ev' hev hev')
    exact List.getElem?_set_ne hother

theorem Pending.settle (h : b.Pending) (hprobe : b'.probeEvents = b.probeEvents)
    (hevents : b'.events = b.events) : (b'.settle url).Pending := by
  have hold : ∀ u ev, (b'.settle url).probeEvents.get? u = some ev →
      u ≠ url ∧ b.probeEvents.get? u = some ev := by
    intro u ev hev
    rw [get?_probeEvents_settle, hprobe] at hev
    split at hev
    · cases hev
    · next hne => exact ⟨hne, hev⟩
  constructor
  · intro u ev hev
    obtain ⟨hne, hev⟩ := hold u ev hev
    rw [h.getElem?_events_settle hprobe hev hne, hevents]
    exact h.unset u ev hev
  · intro u u' ev hev hev'
    exact h.distinct u u' ev (hold u ev hev).2 (hold u' ev hev').2

theorem Pending.recordFailure (h : b.Pending) (clk : Clock) (c : Nat) (reason : String) :
    (b.recordFailure clk url c reason).Pending := by
  by_cases hc : c < b.threshold
  · rwa [recordFailure_of_lt hc]
  by_cases hopen : b.stateFor url = .opened
  · rwa [recordFailure_of_opened hopen]
  rw [recordFailure_of_not_opened (not_lt.mp hc) hopen]
  exact h.settle rfl rfl

theorem Pending.recordSuccess (h : b.Pending) (stats : ProxyStats K) :
    (b.recordSuccess stats url).1.Pending := by
  by_cases hs : b.stateFor url = .halfOpen
  · rw [recordSuccess_of_halfOpen hs]
    exact h.settle rfl rfl
  · rwa [recordSuccess_of_not_halfOpen hs]

theorem Pending.release (h : b.Pending) (stats : ProxyStats K) : (b.release stats url).1.Pending := by
  unfold CircuitBreaker.release
  split
  · exact h.settle rfl rfl
  · exact h.settle rfl rfl

theorem Pending.takeProbe (h : b.Pending) (hinv : b.ProbeInv) : (b.takeProbe url).Pending := by
  have hcases : ∀ u ev, (b.takeProbe url).probeEvents.get? u = some ev →
      u = url ∧ ev = b.events.length ∨ b.probeEvents.get? u = some ev := by
    intro u ev hev
    simp only [CircuitBreaker.takeProbe, Dict.get?_set] at hev
    split at hev
    · next hu =>
      cases hev
      exact .inl ⟨hu, rfl⟩
    · exact .inr hev
  constructor
  · intro u ev hev
    rcases hcases u ev hev with ⟨-, rfl⟩ | hold
    · simp [CircuitBreaker.takeProbe]
    · simp only [CircuitBreaker.takeProbe]
      rw [List.getElem?_append_left (hinv.allocated u ev hold)]
      exact h.unset u ev hold
  · intro u u' ev hev hev'
    rcases hcases u ev hev with ⟨rfl, rfl⟩ | hold
    · rcases hcases u' _ hev' with ⟨rfl, -⟩ | hold'
      · rfl
      · exact absurd (hinv.allocated u' _ hold') (lt_irrefl _)
    · rcases hcases u' ev hev' with ⟨-, rfl⟩ | hold'
      · exact absurd (hinv.allocated u _ hold) (lt_irrefl _)
      · exact h.distinct u u' ev hold hold'

theorem Pending.allowEnter (h : b.Pending) (hinv : b.ProbeInv) (now : ℚ) :
    (b.allowEnter now url).2.Pending := by
  rcases b.allowEnter_cases now url with hsame | ⟨-, -, hprobe⟩
  · rwa [hsame]
  · rw [hprobe]
    exact h.takeProbe hinv

end Pending

inductive Op
  | recordFailure (url : Url) (consecutive : Nat) (reason : String)
  | recordSuccess (url : Url)
  | allowRequest (url : Url)
  | release (url : Url)
  | elapse (dt : ℚ)
  deriving DecidableEq

def machine (threshold : Nat) (baseDelay maxDelay : ℚ) (start : Clock) :
    Machine (CircuitBreaker × Clock) Op where
  init := (new threshold baseDelay maxDelay, start)
  step := fun (b, clk) op => match op with
    | .recordFailure url c r => some (b.recordFailure clk url c r, clk)
    | .recordSuccess url => some ((b.recordSuccess (.empty : ProxyStats Unit) url).1, clk)
    | .allowRequest url => some ((b.allowEnter clk.monotonic url).2, clk)
    | .release url => some ((b.release (.empty : ProxyStats Unit) url).1, clk)
    | .elapse dt => if 0 ≤ dt then some (b, ⟨clk.monotonic + dt, clk.time + dt⟩) else none

section Runs

variable {threshold : Nat} {base max : ℚ} {start : Clock} {b : CircuitBreaker} {clk : Clock}

theorem Reachable.parameters (h : (machine threshold base max start).Reachable (b, clk)) :
    b.parameters = (threshold, base, max) := by
  refine h.invariant (I := fun s => s.1.parameters = (threshold, base, max)) rfl ?_
  rintro ⟨b, clk⟩ op ⟨b', clk'⟩ hI - hstep
  cases op with
  | recordFailure url c r => cases hstep; simpa using hI
  | recordSuccess url => cases hstep; simpa using hI
  | allowRequest url => cases hstep; simpa using hI
  | release url => cases hstep; simpa using hI
  | elapse dt =>
    simp only [machine] at hstep
    split at hstep
    · cases hstep; exact hI
    · cases hstep

/-- In every state the breaker reaches, a count at the threshold bans the url as promised
exactly when the url is not OPEN with a ban that has run out. -/
theorem threshold_bans_iff (hreach : (machine threshold base max start).Reachable (b, clk))
    (hbase : 0 < base) (hmax : 0 < max) (url : Url) {c : Nat} (hc : threshold ≤ c)
    (reason : String) : b.Bans clk url c reason ↔ ¬ b.ExpiredOpen clk.monotonic url := by
  have hparams := Reachable.parameters hreach
  simp only [parameters, Prod.mk.injEq] at hparams
  obtain ⟨rfl, rfl, rfl⟩ := hparams
  constructor
  · exact fun h hexp => not_bans_of_expiredOpen hexp h
  · intro hexp
    by_cases hopen : b.stateFor url = .opened
    · apply bans_of_blocked
      rw [mem_blockedUrls]
      exact ⟨hopen, lt_of_not_ge fun hle => hexp ⟨hopen, hle⟩⟩
    · exact bans_of_not_opened hbase hmax hc hopen

end Runs

theorem threshold_bans_from_closed :
    (new 1 60 3600).Bans ⟨0, 0⟩ "http://10.0.0.1:8080" 1 "consecutive failures" :=
  (threshold_bans_iff (.init : (machine 1 60 3600 ⟨0, 0⟩).Reachable _) (by norm_num)
    (by norm_num) _ le_rfl _).mpr (by decide +kernel)

/-- A proxy is banned, its ban runs out, and the background checker's retest fails: the failure
is recorded with a count at the threshold and the proxy is not banned again. -/
theorem threshold_bans_fails_after_expiry :
    ¬ ∀ (threshold : Nat) (base max : ℚ) (start : Clock) (s : CircuitBreaker × Clock),
      (machine threshold base max start).Reachable s → 0 < base → 0 < max →
        ∀ (url : Url) (c : Nat), threshold ≤ c → ∀ reason, s.1.Bans s.2 url c reason := by
  intro h
  obtain ⟨s, hs, hexp⟩ := Machine.exists_reachable (M := machine 1 60 3600 ⟨0, 0⟩)
    (P := fun s => s.1.ExpiredOpen s.2.monotonic "http://10.0.0.1:8080")
    [.recordFailure "http://10.0.0.1:8080" 1 "consecutive failures", .elapse 60]
    (by decide +kernel)
  exact not_bans_of_expiredOpen hexp
    (h 1 60 3600 ⟨0, 0⟩ s hs (by norm_num) (by norm_num) _ 1 le_rfl "retest failed")

end CircuitBreaker

end ProxySplit
