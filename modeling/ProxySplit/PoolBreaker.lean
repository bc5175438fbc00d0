import ProxySplit.CircuitBreaker

namespace ProxySplit

open Lib

structure PoolEntry where
  state : CBState
  strike : Nat
  openUntil : ℚ
  bannedAt : Option ℚ
  deriving DecidableEq

def PoolEntry.fresh : PoolEntry := ⟨.closed, 0, 0, none⟩

abbrev PoolKey := Url × Option String

structure PoolCircuitBreaker where
  threshold : Nat
  baseDelay : ℚ
  maxDelay : ℚ
  breakers : Dict PoolKey PoolEntry
  deriving DecidableEq

namespace PoolCircuitBreaker

def new (threshold : Nat) (baseDelay maxDelay : ℚ) : PoolCircuitBreaker :=
  ⟨threshold, baseDelay, maxDelay, .empty⟩

def entry (b : PoolCircuitBreaker) (k : PoolKey) : PoolEntry := (b.breakers.get? k).getD .fresh

def assign (b : PoolCircuitBreaker) (k : PoolKey) (e : PoolEntry) : PoolCircuitBreaker :=
  { b with breakers := b.breakers.set k e }

def recordFailure (b : PoolCircuitBreaker) (clk : Clock) (k : PoolKey) (consecutive : Nat) :
    PoolCircuitBreaker :=
  if consecutive < b.threshold then b
  else match (b.entry k).state with
    | .closed | .halfOpen =>
      let strike := (b.entry k).strike + 1
      let delay := min (b.baseDelay * 2 ^ (strike - 1)) b.maxDelay
      b.assign k ⟨.opened, strike, clk.monotonic + delay, some clk.time⟩
    | .opened => b

def recordSuccess (b : PoolCircuitBreaker) (k : PoolKey) : PoolCircuitBreaker :=
  match (b.entry k).state with
  | .halfOpen => b.assign k { b.entry k with state := .closed, strike := 0 }
  | .closed | .opened => b

def allowRequest (b : PoolCircuitBreaker) (now : ℚ) (k : PoolKey) : Bool × PoolCircuitBreaker :=
  match (b.entry k).state with
  | .closed => (true, b)
  | .opened =>
    if now < (b.entry k).openUntil then (false, b)
    else (true, b.assign k { b.entry k with state := .halfOpen })
  | .halfOpen => (true, b)

def release (b : PoolCircuitBreaker) (k : PoolKey) : PoolCircuitBreaker :=
  match b.breakers.get? k with
  | none => b
  | some e => b.assign k { e with state := .closed, strike := 0 }

def blockedFor (b : PoolCircuitBreaker) (now : ℚ) (pool : Option String) : List Url :=
  (b.breakers.entries.filter fun p =>
    p.1.2 = pool ∧ p.2.state = .opened ∧ now < p.2.openUntil).map fun p => p.1.1

@[simp] theorem entry_assign (b : PoolCircuitBreaker) (k k' : PoolKey) (e : PoolEntry) :
    (b.assign k e).entry k' = if k' = k then e else b.entry k' := by
  simp only [entry, assign, Dict.get?_set]
  split <;> rfl

inductive Op
  | recordFailure (k : PoolKey) (consecutive : Nat)
  | recordSuccess (k : PoolKey)
  | allowRequest (k : PoolKey)
  | release (k : PoolKey)
  | elapse (dt : ℚ)
  deriving DecidableEq

namespace Op

def key : Op → Option PoolKey
  | .recordFailure k _ | .recordSuccess k | .allowRequest k | .release k => some k
  | .elapse _ => none

def apply (clk : Clock) (b : PoolCircuitBreaker) : Op → PoolCircuitBreaker × Option Bool
  | .recordFailure k c => (b.recordFailure clk k c, none)
  | .recordSuccess k => (b.recordSuccess k, none)
  | .allowRequest k => ((b.allowRequest clk.monotonic k).2, some (b.allowRequest clk.monotonic k).1)
  | .release k => (b.release k, none)
  | .elapse _ => (b, none)

/-- The same call on a breaker without pools, whose waiters answer False while the probe is outstanding. -/
def applyAlone (clk : Clock) (b : CircuitBreaker) : Op → CircuitBreaker × Option Bool
  | .recordFailure k c => (b.recordFailure clk k.1 c CircuitBreaker.defaultReason, none)
  | .recordSuccess k => ((b.recordSuccess (.empty : ProxyStats Unit) k.1).1, none)
  | .allowRequest k =>
    ((b.allowEnter clk.monotonic k.1).2, some <| match (b.allowEnter clk.monotonic k.1).1 with
      | .answer a => a
      | .wait _ => false)
  | .release k => ((b.release (.empty : ProxyStats Unit) k.1).1, none)
  | .elapse _ => (b, none)

end Op

/-- What one pair shows of itself in the breaker for pools and in one of its own. -/
structure Mirrors (b : PoolCircuitBreaker) (own : CircuitBreaker) (k : PoolKey) : Prop where
  threshold : b.threshold = own.threshold
  baseDelay : b.baseDelay = own.baseDelay
  maxDelay : b.maxDelay = own.maxDelay
  state : (b.entry k).state = own.stateFor k.1
  strike : (b.entry k).strike = own.strike k.1
  openUntil : (b.entry k).openUntil = own.openUntil k.1

variable {b : PoolCircuitBreaker} {own : CircuitBreaker} {k : PoolKey} {clk : Clock}

theorem Op.apply_cases (op : Op) (clk : Clock) (b : PoolCircuitBreaker) :
    (op.apply clk b).1 = b ∨ ∃ k e, op.key = some k ∧ (op.apply clk b).1 = b.assign k e := by
  cases op with
  | recordFailure k c =>
    simp only [apply, PoolCircuitBreaker.recordFailure]
    split
    · exact .inl rfl
    · split
      · exact .inr ⟨k, _, rfl, rfl⟩
      · exact .inr ⟨k, _, rfl, rfl⟩
      · exact .inl rfl
  | recordSuccess k =>
    simp only [apply, PoolCircuitBreaker.recordSuccess]
    split
    · exact .inr ⟨k, _, rfl, rfl⟩
    · exact .inl rfl
    · exact .inl rfl
  | allowRequest k =>
    simp only [apply, PoolCircuitBreaker.allowRequest]
    split
    · exact .inl rfl
    · split
      · exact .inl rfl
      · exact .inr ⟨k, _, rfl, rfl⟩
    · exact .inl rfl
  | release k =>
    simp only [apply, PoolCircuitBreaker.release]
    split
    · exact .inl rfl
    · exact .inr ⟨k, _, rfl, rfl⟩
  | elapse dt => exact .inl rfl

theorem entry_apply_of_ne {op : Op} (b : PoolCircuitBreaker) (clk : Clock) (hk : op.key ≠ some k) :
    (op.apply clk b).1.entry k = b.entry k := by
  rcases op.apply_cases clk b with hsame | ⟨k', e, hkey, hset⟩
  · rw [hsame]
  · have hne : k ≠ k' := by
      rintro rfl
      exact hk hkey
    rw [hset, entry_assign, if_neg hne]

theorem parameters_apply (op : Op) (clk : Clock) (b : PoolCircuitBreaker) :
    (op.apply clk b).1.threshold = b.threshold ∧
    (op.apply clk b).1.baseDelay = b.baseDelay ∧ (op.apply clk b).1.maxDelay = b.maxDelay := by
  rcases op.apply_cases clk b with hsame | ⟨k', e, hkey, hset⟩
  · rw [hsame]
    exact ⟨rfl, rfl, rfl⟩
  · rw [hset]
    exact ⟨rfl, rfl, rfl⟩

namespace Mirrors

theorem other (h : Mirrors b own k) {op : Op} (hk : op.key ≠ some k) :
    Mirrors (op.apply clk b).1 own k := by
  have hentry := entry_apply_of_ne b clk hk
  obtain ⟨ht, hb, hm⟩ := parameters_apply op clk b
  exact ⟨ht.trans h.threshold, hb.trans h.baseDelay, hm.trans h.maxDelay, hentry ▸ h.state,
    hentry ▸ h.strike, hentry ▸ h.openUntil⟩

theorem assign (h : Mirrors b own k) {e : PoolEntry} {own' : CircuitBreaker}
    (hparams : own'.parameters = own.parameters) (hstate : e.state = own'.stateFor k.1)
    (hstrike : e.strike = own'.strike k.1) (huntil : e.openUntil = own'.openUntil k.1) :
    Mirrors (b.assign k e) own' k := by
  simp only [CircuitBreaker.parameters, Prod.mk.injEq] at hparams
  obtain ⟨ht, hb, hm⟩ := hparams
  have hentry : (b.assign k e).entry k = e := by rw [entry_assign, if_pos rfl]
  exact ⟨h.threshold.trans ht.symm, h.baseDelay.trans hb.symm, h.maxDelay.trans hm.symm,
    hentry.symm ▸ hstate, hentry.symm ▸ hstrike, hentry.symm ▸ huntil⟩

theorem recordFailure (h : Mirrors b own k) (clk : Clock) (c : Nat) (reason : String) :
    Mirrors (b.recordFailure clk k c) (own.recordFailure clk k.1 c reason) k := by
  unfold PoolCircuitBreaker.recordFailure
  rw [h.threshold]
  split
  · next hc => rwa [CircuitBreaker.recordFailure_of_lt hc]
  · next hc =>
    have hopen : (b.entry k).state ≠ .opened → Mirrors (b.assign k
        ⟨.opened, (b.entry k).strike + 1, clk.monotonic +
          min (b.baseDelay * 2 ^ ((b.entry k).strike + 1 - 1)) b.maxDelay, some clk.time⟩)
        (own.recordFailure clk k.1 c reason) k := by
      intro hs
      rw [CircuitBreaker.recordFailure_of_not_opened (not_lt.mp hc) (h.state ▸ hs)]
      refine h.assign ?_ ?_ ?_ ?_
      · rw [CircuitBreaker.parameters_settle, CircuitBreaker.parameters_openBan]
      · simp [CircuitBreaker.stateFor]
      · have hstrike := h.strike
        simp only [CircuitBreaker.strike] at hstrike
        simp [CircuitBreaker.strike, hstrike]
      · simp [CircuitBreaker.openUntil, CircuitBreaker.delay, h.strike, h.baseDelay, h.maxDelay]
    split
    · next hs => exact hopen (by simp [hs])
    · next hs => exact hopen (by simp [hs])
    · next hs => rwa [CircuitBreaker.recordFailure_of_opened (h.state.symm.trans hs)]

theorem recordSuccess (h : Mirrors b own k) (stats : ProxyStats K) :
    Mirrors (b.recordSuccess k) (own.recordSuccess stats k.1).1 k := by
  unfold PoolCircuitBreaker.recordSuccess
  have hstate := h.state
  split
  · next hs =>
    rw [CircuitBreaker.recordSuccess_of_halfOpen (hstate.symm.trans hs)]
    refine h.assign ?_ ?_ ?_ ?_
    · rw [CircuitBreaker.parameters_settle]
      rfl
    · simp [CircuitBreaker.stateFor]
    · simp [CircuitBreaker.strike]
    · have huntil := h.openUntil
      simpa [CircuitBreaker.openUntil] using huntil
  · next hs => rwa [CircuitBreaker.recordSuccess_of_not_halfOpen (by simp [← hstate, hs])]
  · next hs => rwa [CircuitBreaker.recordSuccess_of_not_halfOpen (by simp [← hstate, hs])]

theorem release (h : Mirrors b own k) (stats : ProxyStats K) :
    Mirrors (b.release k) (own.release stats k.1).1 k := by
  have hown : (own.release stats k.1).1.entry k.1 =
      { own.entry k.1 with state := .closed, strike := 0 } := by
    unfold CircuitBreaker.release
    rw [CircuitBreaker.entry_settle]
    split
    · next hnone => simp [CircuitBreaker.entry, hnone, BreakerEntry.fresh]
    · next e hsome => simp [CircuitBreaker.entry, hsome]
  have hb : (b.release k).entry k = { b.entry k with state := .closed, strike := 0 } := by
    unfold PoolCircuitBreaker.release
    split
    · next hnone => simp [entry, hnone, PoolEntry.fresh]
    · next e hsome => rw [entry_assign, if_pos rfl, entry, hsome, Option.getD_some]
  have hsame := parameters_apply (.release k) ⟨0, 0⟩ b
  simp only [Op.apply] at hsame
  have hparams := CircuitBreaker.parameters_release own stats k.1
  simp only [CircuitBreaker.parameters, Prod.mk.injEq] at hparams
  constructor
  · rw [hsame.1, hparams.1, h.threshold]
  · rw [hsame.2.1, hparams.2.1, h.baseDelay]
  · rw [hsame.2.2, hparams.2.2, h.maxDelay]
  · rw [hb, CircuitBreaker.stateFor, hown]
  · rw [hb, CircuitBreaker.strike, hown]
  · rw [hb, CircuitBreaker.openUntil, hown]
    exact h.openUntil

theorem allowRequest (h : Mirrors b own k) (now : ℚ) :
    Mirrors (b.allowRequest now k).2 (own.allowEnter now k.1).2 k := by
  have hstate := h.state
  unfold PoolCircuitBreaker.allowRequest CircuitBreaker.allowEnter
  rw [← hstate, ← h.openUntil]
  cases hs : (b.entry k).state with
  | closed => exact h
  | opened =>
    dsimp only
    split
    · exact h
    · refine h.assign rfl ?_ ?_ ?_
      · simp [CircuitBreaker.stateFor]
      · have hstrike := h.strike
        simpa [CircuitBreaker.strike] using hstrike
      · have huntil := h.openUntil
        simpa [CircuitBreaker.openUntil] using huntil
  | halfOpen =>
    dsimp only
    split
    · exact h
    · exact h

theorem apply (h : Mirrors b own k) {op : Op} (hk : op.key = some k) :
    Mirrors (op.apply clk b).1 (op.applyAlone clk own).1 k := by
  cases op with
  | recordFailure => cases hk; exact h.recordFailure ..
  | recordSuccess => cases hk; exact h.recordSuccess _
  | allowRequest => cases hk; exact h.allowRequest _
  | release => cases hk; exact h.release (.empty : ProxyStats Unit)
  | elapse => cases hk

theorem answer (h : Mirrors b own k) (clk : Clock) {op : Op} (hk : op.key = some k) :
    ((op.apply clk b).2 = (op.applyAlone clk own).2 ↔
      (op = .allowRequest k → (b.entry k).state ≠ .halfOpen)) ∧
    (op = .allowRequest k → (b.entry k).state = .halfOpen → (op.apply clk b).2 = some true) := by
  cases op with
  | recordFailure | recordSuccess | release => exact ⟨iff_of_true rfl nofun, nofun⟩
  | elapse => cases hk
  | allowRequest k' =>
    cases hk
    have hstate := h.state
    simp only [Op.apply, Op.applyAlone, PoolCircuitBreaker.allowRequest, CircuitBreaker.allowEnter,
      ← hstate, ← h.openUntil]
    cases hs : (b.entry k).state with
    | closed => simp
    | opened =>
      dsimp only
      split
      · simp
      · simp
    | halfOpen =>
      cases own.probeEvents.get? k.1 with
      | none => simp
      | some ev => simp

theorem mem_blockedFor (h : Mirrors b own k) (now : ℚ) :
    k.1 ∈ b.blockedFor now k.2 ↔ k.1 ∈ own.blockedUrls now := by
  rw [CircuitBreaker.mem_blockedUrls, ← h.state, ← h.openUntil]
  simp only [blockedFor, List.mem_map, List.mem_filter, decide_eq_true_eq, entry]
  constructor
  · rintro ⟨⟨⟨url, pool⟩, e⟩, ⟨hmem, hpool, hblocked⟩, hurl⟩
    obtain rfl : (url, pool) = k := Prod.ext hurl hpool
    rw [(b.breakers.mem_entries_iff _ e).mp hmem]
    exact hblocked
  · intro hblocked
    cases hget : b.breakers.get? k with
    | none => simp [hget, PoolEntry.fresh] at hblocked
    | some e =>
      rw [hget] at hblocked
      exact ⟨(k, e), ⟨(b.breakers.mem_entries_iff _ e).mpr hget, rfl, hblocked⟩, rfl⟩

end Mirrors

theorem halfOpen_of_apply {op : Op} (hk : op.key = some k)
    (h : ((op.apply clk b).1.entry k).state = .halfOpen) :
    (b.entry k).state = .halfOpen ∧ (op = .allowRequest k ∨ (op.apply clk b).2 = none) ∨
      (b.entry k).state ≠ .halfOpen ∧ (op.apply clk b).2 = some true := by
  cases op with
  | recordFailure k' c =>
    cases hk
    refine .inl ⟨?_, .inr rfl⟩
    simp only [Op.apply, recordFailure] at h
    split at h
    · exact h
    · split at h
      · simp at h
      · simp at h
      · exact h
  | recordSuccess k' =>
    cases hk
    refine .inl ⟨?_, .inr rfl⟩
    simp only [Op.apply, recordSuccess] at h
    split at h
    · simp at h
    · exact h
    · exact h
  | allowRequest k' =>
    cases hk
    simp only [Op.apply, allowRequest] at h ⊢
    cases hs : (b.entry k).state with
    | closed => simp [hs] at h
    | opened =>
      simp only [hs] at h ⊢
      split at h
      · simp [hs] at h
      · next hnow => simp [hnow]
    | halfOpen => exact .inl ⟨rfl, .inl trivial⟩
  | release k' =>
    cases hk
    simp only [Op.apply, release] at h
    split at h
    · next hnone => simp [entry, hnone, PoolEntry.fresh] at h
    · simp at h
  | elapse => cases hk

/-- The breaker for pools beside one that sees the calls of one pair only, with the answers that the pair
got from both and the number of those that let a request through in the probe that is outstanding. -/
structure Beside where
  pools : PoolCircuitBreaker
  own : CircuitBreaker
  clock : Clock
  answers : List Bool
  ownAnswers : List Bool
  probes : Nat
  deriving DecidableEq

namespace Beside

def step (k : PoolKey) (s : Beside) : Op → Option Beside
  | .elapse dt =>
    if 0 ≤ dt then some { s with clock := ⟨s.clock.monotonic + dt, s.clock.time + dt⟩ } else none
  | op =>
    let out := op.apply s.clock s.pools
    if op.key = some k then
      let ownOut := op.applyAlone s.clock s.own
      some { s with
        pools := out.1
        own := ownOut.1
        answers := s.answers ++ out.2.toList
        ownAnswers := s.ownAnswers ++ ownOut.2.toList
        probes := if (out.1.entry k).state = .halfOpen then
          s.probes + (if out.2 = some true then 1 else 0) else 0 }
    else some { s with pools := out.1 }

def machine (k : PoolKey) (threshold : Nat) (baseDelay maxDelay : ℚ) (start : Clock) :
    Machine Beside Op where
  init := ⟨.new threshold baseDelay maxDelay, .new threshold baseDelay maxDelay, start, [], [], 0⟩
  step := step k

/-- The pair gets the answers of a breaker of its own, and lets one request through per probe. -/
structure Refines (k : PoolKey) (s : Beside) : Prop where
  mirrors : Mirrors s.pools s.own k
  answers : s.answers = s.ownAnswers
  probes : s.probes ≤ 1

/-- Nobody asks for the pair while its probe is outstanding. -/
def SparesProbe (k : PoolKey) (s : Beside) (op : Op) : Prop :=
  op = .allowRequest k → (s.pools.entry k).state ≠ .halfOpen

instance (k : PoolKey) (s : Beside) (op : Op) : Decidable (SparesProbe k s op) :=
  inferInstanceAs (Decidable (_ → _))

variable {s s' : Beside} {op : Op} {threshold : Nat} {base max : ℚ} {start : Clock}

theorem step_cases (h : step k s op = some s') :
    (op.key ≠ some k ∧ s'.own = s.own ∧ s'.answers = s.answers ∧ s'.ownAnswers = s.ownAnswers ∧
      s'.probes = s.probes ∧ s'.pools = (op.apply s.clock s.pools).1) ∨
    (op.key = some k ∧ s'.own = (op.applyAlone s.clock s.own).1 ∧
      s'.pools = (op.apply s.clock s.pools).1 ∧
      s'.answers = s.answers ++ (op.apply s.clock s.pools).2.toList ∧
      s'.ownAnswers = s.ownAnswers ++ (op.applyAlone s.clock s.own).2.toList ∧
      s'.probes = if (s'.pools.entry k).state = .halfOpen then
        s.probes + (if (op.apply s.clock s.pools).2 = some true then 1 else 0) else 0) := by
  by_cases hk : op.key = some k
  · cases op with
    | elapse => cases hk
    | _ =>
      simp only [step, if_pos hk] at h
      cases h
      exact .inr ⟨hk, rfl, rfl, rfl, rfl, rfl⟩
  · cases op with
    | elapse dt =>
      rw [step] at h
      split at h
      · cases h
        exact .inl ⟨hk, rfl, rfl, rfl, rfl, rfl⟩
      · cases h
    | _ =>
      simp only [step, if_neg hk] at h
      cases h
      exact .inl ⟨hk, rfl, rfl, rfl, rfl, rfl⟩

structure Spared (k : PoolKey) (s : Beside) : Prop where
  mirrors : Mirrors s.pools s.own k
  answers : s.answers = s.ownAnswers
  probes : s.probes = if (s.pools.entry k).state = .halfOpen then 1 else 0

theorem mirrors_step (h : Mirrors s.pools s.own k) (hstep : step k s op = some s') :
    Mirrors s'.pools s'.own k := by
  rcases step_cases hstep with ⟨hk, hown, -, -, -, hpools⟩ | ⟨hk, hown, hpools, -⟩
  · rw [hown, hpools]
    exact h.other hk
  · rw [hown, hpools]
    exact h.apply hk

theorem Spared.step (h : Spared k s) (hspares : SparesProbe k s op) (hstep : step k s op = some s') :
    Spared k s' := by
  refine ⟨mirrors_step h.mirrors hstep, ?_, ?_⟩
  · rcases step_cases hstep with ⟨-, -, hans, hown, -, -⟩ | ⟨hk, -, -, hans, hown, -⟩
    · rw [hans, hown, h.answers]
    · rw [hans, hown, h.answers, ((h.mirrors.answer s.clock hk).1).mpr hspares]
  · rcases step_cases hstep with ⟨hk, -, -, -, hprobes, hpools⟩ | ⟨hk, -, hpools, -, -, hprobes⟩
    · have hentry : s'.pools.entry k = s.pools.entry k := by rw [hpools, entry_apply_of_ne _ _ hk]
      rw [hprobes, hentry]
      exact h.probes
    · rw [hprobes]
      split
      · next hhalf =>
        rw [hpools] at hhalf
        rcases halfOpen_of_apply hk hhalf with ⟨hbefore, rfl | hnone⟩ | ⟨hbefore, htrue⟩
        · exact absurd hbefore (hspares rfl)
        · rw [hnone, h.probes, if_pos hbefore]
          rfl
        · rw [htrue, h.probes, if_neg hbefore]
          rfl
      · rfl

theorem mirrors_of_reachable (hs : (machine k threshold base max start).Reachable s) :
    Mirrors s.pools s.own k :=
  hs.invariant (I := fun s => Mirrors s.pools s.own k) ⟨rfl, rfl, rfl, rfl, rfl, rfl⟩
    fun _ _ _ hI _ hstep => mirrors_step hI hstep

theorem spared_of_reach (hs : (machine k threshold base max start).Reach (SparesProbe k) s) :
    Spared k s :=
  hs.invariant (I := Spared k) ⟨⟨rfl, rfl, rfl, rfl, rfl, rfl⟩, rfl, rfl⟩
    fun _ _ _ hI hok hstep => hI.step hok hstep

theorem Spared.refines (h : Spared k s) : Refines k s := by
  refine ⟨h.mirrors, h.answers, ?_⟩
  rw [h.probes]
  split <;> decide

/-- State, strikes and deadline of a pair are always those of a breaker of its own.  Its answers are too, and
one request goes through per probe, as long as nobody asks for the pair while its probe is outstanding, and
no longer. -/
theorem refines_iff (k : PoolKey) (threshold : Nat) (base max : ℚ) (start : Clock) (s : Beside) :
    ((machine k threshold base max start).Reachable s → Mirrors s.pools s.own k) ∧
      ((machine k threshold base max start).Reach (SparesProbe k) s → Refines k s ∧
        ∀ op s', step k s op = some s' → (Refines k s' ↔ SparesProbe k s op)) := by
  refine ⟨mirrors_of_reachable, fun hs => ?_⟩
  have hspared := spared_of_reach hs
  refine ⟨hspared.refines, fun op s' hstep => ⟨fun hrefines => ?_, fun hspares => ?_⟩⟩
  · have hanswers := hrefines.answers
    rcases step_cases hstep with ⟨hk, -⟩ | ⟨hk, -, -, hans, hown, -⟩
    · rintro rfl
      exact absurd rfl hk
    · refine ((hspared.mirrors.answer s.clock hk).1).mp ?_
      rw [hans, hown, hspared.answers] at hanswers
      have hheads := congrArg List.head? (List.append_cancel_left hanswers)
      rwa [Option.head?_toList, Option.head?_toList] at hheads
  · exact (hspared.step hspares hstep).refines

def cdn : PoolKey := ("http://10.0.0.1:8080", some "cdn")

theorem refines_one_probe : ∃ s, Refines cdn s ∧ (s.pools.entry cdn).state = .halfOpen := by
  have hrun : ∃ s, (machine cdn 1 60 3600 ⟨0, 0⟩).Reach (SparesProbe cdn) s ∧
      (s.pools.entry cdn).state = .halfOpen :=
    Machine.exists_reach_if
      [.recordFailure cdn 1, .elapse 60, .allowRequest (cdn.1, none), .allowRequest cdn]
      (by decide +kernel)
  obtain ⟨s, hs, hstate⟩ := hrun
  exact ⟨s, ((refines_iff cdn 1 60 3600 ⟨0, 0⟩ s).2 hs).1, hstate⟩

/-- Two requests arrive when the ban has run out, and both are let through. -/
theorem second_probe_allowed : ¬ ∀ (k : PoolKey) (threshold : Nat) (base max : ℚ) (start : Clock)
    (s : Beside), (machine k threshold base max start).Reachable s → Refines k s := by
  intro h
  obtain ⟨s, hs, hprobes⟩ := Machine.exists_reachable (M := machine cdn 1 60 3600 ⟨0, 0⟩)
    (P := fun s => ¬ s.probes ≤ 1)
    [.recordFailure cdn 1, .elapse 60, .allowRequest cdn, .allowRequest cdn] (by decide +kernel)
  exact hprobes (h cdn 1 60 3600 ⟨0, 0⟩ s hs).probes

end Beside

end PoolCircuitBreaker

end ProxySplit
