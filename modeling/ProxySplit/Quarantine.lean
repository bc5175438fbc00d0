import ProxySplit.BreakerHistory
import ProxySplit.PoolSnapshot

namespace ProxySplit

open Lib

theorem roundTo_nonpos {x : ℚ} (h : x ≤ 0) (digits : Nat) : roundTo digits x ≤ 0 := by
  have hpow : (0 : ℚ) < 10 ^ digits := by positivity
  have hfloor : ⌊x * 10 ^ digits⌋ ≤ 0 :=
    Int.floor_nonpos (mul_nonpos_of_nonpos_of_nonneg h hpow.le)
  -- A floor of 0 here is that of 0 itself, which is not rounded up.
  have hup : ¬ x * 10 ^ digits - ⌊x * 10 ^ digits⌋ < 1 / 2 → ⌊x * 10 ^ digits⌋ + 1 ≤ 0 := by
    intro hhalf
    by_contra hpos
    have hzero : ⌊x * 10 ^ digits⌋ = 0 := by omega
    rw [hzero] at hhalf
    have hle : x * 10 ^ digits ≤ 0 := mul_nonpos_of_nonpos_of_nonneg h hpow.le
    push_cast at hhalf
    linarith
  unfold roundTo
  refine div_nonpos_of_nonpos_of_nonneg (Int.cast_nonpos.mpr ?_) hpow.le
  split
  · exact hfloor
  · next hhalf =>
    split
    · exact hup hhalf
    · split
      · exact hfloor
      · exact hup hhalf

/-- A value of `CircuitBreaker.snapshot`. -/
structure BreakerRow where
  state : CBState
  strike : Nat
  reason : String
  bannedAt : Option ℚ
  remainingS : ℚ
  deriving DecidableEq

/-- A value of `compat_quarantine_snapshot`. -/
structure QuarantineRow where
  reason : String
  strike : Nat
  state : CBState
  bannedAt : Option ℚ
  remainingS : ℚ
  active : Bool
  deriving DecidableEq

namespace CircuitBreaker

def snapshotRow (now : ℚ) (e : BreakerEntry) : BreakerRow :=
  ⟨e.state, e.strike, e.reason, e.bannedAt, max 0 (roundTo 1 (e.openUntil - now))⟩

def snapshot (b : CircuitBreaker) (now : ℚ) : Dict Url BreakerRow :=
  .ofList ((b.breakers.entries.filter fun p => p.2.state ≠ .closed).map fun p => (p.1, snapshotRow now p.2))

/-- `compat_quarantine_snapshot` with a breaker. -/
def compatQuarantineSnapshot (b : CircuitBreaker) (now : ℚ) : Dict Url QuarantineRow :=
  (b.snapshot now).mapValues fun v =>
    ⟨v.reason, v.strike, v.state, v.bannedAt, v.remainingS, v.state ≠ .closed⟩

structure Ban where
  clock : Clock
  reason : String
  deriving DecidableEq

def Op.reason : Op → String
  | .recordFailure _ _ reason => reason
  | _ => ""

/-- The observer that keeps for each url the bans since it was last CLOSED, going by `state_for` alone. -/
def noteBans (bans : Url → List Ban) (s : CircuitBreaker × Clock) (op : Op) (s' : CircuitBreaker × Clock) :
    Url → List Ban := fun url =>
  match s'.1.stateFor url with
  | .closed => []
  | .opened => if s.1.stateFor url = .opened then bans url else bans url ++ [⟨s.2, op.reason⟩]
  | .halfOpen => bans url

def banned (threshold : Nat) (base max : ℚ) (start : Clock) :
    Machine ((CircuitBreaker × Clock) × (Url → List Ban)) Op :=
  (machine threshold base max start).observed (fun _ => []) noteBans

variable {threshold : Nat} {base max : ℚ} {start clk clk' : Clock} {b b' : CircuitBreaker} {op : Op}
  {bans : Url → List Ban} {url u : Url} {e : BreakerEntry}

theorem get?_snapshot (b : CircuitBreaker) (now : ℚ) (url : Url) : (b.snapshot now).get? url =
    if b.stateFor url ≠ .closed then some (snapshotRow now (b.entry url)) else none := by
  rw [snapshot, Dict.get?_ofList_filter_map (fun e => decide (e.state ≠ .closed)) (snapshotRow now)]
  unfold stateFor entry
  cases b.breakers.get? url with
  | none => rfl
  | some e =>
    rw [Option.filter_some, Option.getD_some]
    by_cases h : e.state = .closed
    · simp [h]
    · simp [h]

theorem entry_of_step (hstep : (machine threshold base max start).step (b, clk) op = some (b', clk'))
    (u : Url) :
    b'.entry u = b.entry u ∨
    (∃ c r, op = .recordFailure u c r ∧ b.stateFor u ≠ .opened ∧ clk' = clk ∧
      b'.entry u = ⟨.opened, b.strike u + 1, clk.monotonic + b.delay (b.strike u + 1), some clk.time, r⟩) ∨
    (b.stateFor u = .opened ∧ b.openUntil u ≤ clk.monotonic ∧ clk' = clk ∧
      b'.entry u = { b.entry u with state := .halfOpen }) ∨
    ∃ reason, b'.entry u = { b.entry u with state := .closed, strike := 0, reason := reason } := by
  cases op with
  | recordFailure url c r =>
    cases hstep
    by_cases hc : c < b.threshold
    · exact .inl (by rw [recordFailure_of_lt hc])
    by_cases hopen : b.stateFor url = .opened
    · exact .inl (by rw [recordFailure_of_opened hopen])
    rw [recordFailure_of_not_opened (not_lt.mp hc) hopen, entry_settle, entry_openBan]
    split
    · next hu =>
      subst hu
      exact .inr (.inl ⟨c, r, rfl, hopen, rfl, rfl⟩)
    · exact .inl rfl
  | recordSuccess url =>
    cases hstep
    by_cases hs : b.stateFor url = .halfOpen
    · rw [recordSuccess_of_halfOpen hs, entry_settle, entry_close]
      split
      · next hu =>
        subst hu
        exact .inr (.inr (.inr ⟨"", rfl⟩))
      · exact .inl rfl
    · exact .inl (by rw [recordSuccess_of_not_halfOpen hs])
  | allowRequest url =>
    cases hstep
    rcases b.allowEnter_cases clk.monotonic url with hsame | ⟨hopen, hexpired, hprobe⟩
    · exact .inl (by rw [hsame])
    · rw [hprobe, entry_takeProbe]
      split
      · next hu =>
        subst hu
        exact .inr (.inr (.inl ⟨hopen, hexpired, rfl, rfl⟩))
      · exact .inl rfl
  | release url =>
    cases hstep
    by_cases hu : u = url
    · subst hu
      exact .inr (.inr (.inr ⟨_, entry_release b _ u⟩))
    · exact .inl (by rw [entry_release_of_ne _ hu])
  | elapse dt =>
    simp only [machine] at hstep
    split at hstep
    · cases hstep
      exact .inl rfl
    · cases hstep

theorem monotonic_of_step (hstep : (machine threshold base max start).step (b, clk) op = some (b', clk')) :
    clk.monotonic ≤ clk'.monotonic := by
  cases op with
  | recordFailure | recordSuccess | allowRequest | release =>
    cases hstep
    exact le_rfl
  | elapse dt =>
    simp only [machine] at hstep
    split at hstep
    · next hdt =>
      cases hstep
      exact le_add_of_nonneg_right hdt
    · cases hstep

structure Standing (base max now : ℚ) (bans : List Ban) (e : BreakerEntry) : Prop where
  closed : e.state = .closed → bans = []
  strike : e.strike = bans.length
  standing : e.state ≠ .closed → ∃ before ban, bans = before ++ [ban] ∧
    e.openUntil = ban.clock.monotonic + min (base * 2 ^ (bans.length - 1)) max ∧
    e.bannedAt = some ban.clock.time ∧ e.reason = ban.reason
  probed : e.state = .halfOpen → e.openUntil ≤ now

theorem standing_fresh (base max now : ℚ) : Standing base max now [] .fresh where
  closed _ := rfl
  strike := rfl
  standing h := absurd rfl h
  probed h := by cases h

theorem Standing.later {now now' : ℚ} {l : List Ban} (h : Standing base max now l e) (hle : now ≤ now') :
    Standing base max now' l e :=
  { h with probed := fun hs => (h.probed hs).trans hle }

theorem noteBans_of_same {l : List Ban} (h : Standing base max clk.monotonic l (b.entry u))
    (hl : bans u = l) (hsame : b'.entry u = b.entry u) : noteBans bans (b, clk) op (b', clk') u = l := by
  simp only [noteBans, stateFor, hsame, hl]
  split
  · next hs => exact (h.closed hs).symm
  · next hs => rw [if_pos hs]
  · rfl

theorem Standing.step (hparams : b.parameters = (threshold, base, max))
    (h : Standing base max clk.monotonic (bans u) (b.entry u))
    (hstep : (machine threshold base max start).step (b, clk) op = some (b', clk')) :
    Standing base max clk'.monotonic (noteBans bans (b, clk) op (b', clk') u) (b'.entry u) := by
  simp only [parameters, Prod.mk.injEq] at hparams
  obtain ⟨-, hbase, hmax⟩ := hparams
  rcases entry_of_step hstep u with hsame | ⟨c, r, rfl, hopen, rfl, hnew⟩ | ⟨hopen, hexpired, rfl, hnew⟩ |
    ⟨reason, hnew⟩
  · rw [noteBans_of_same h rfl hsame, hsame]
    exact h.later (monotonic_of_step hstep)
  · have hbans : noteBans bans (b, clk') (.recordFailure u c r) (b', clk') u = bans u ++ [⟨clk', r⟩] := by
      simp only [noteBans, stateFor, hnew]
      exact if_neg hopen
    have hlength : b.strike u + 1 = (bans u ++ [(⟨clk', r⟩ : Ban)]).length := by
      rw [List.length_append, CircuitBreaker.strike, h.strike]
      rfl
    rw [hbans, hnew]
    constructor
    case closed => exact fun hs => (by cases hs)
    case strike => exact hlength
    case standing =>
      refine fun _ => ⟨bans u, ⟨clk', r⟩, rfl, ?_, rfl, rfl⟩
      rw [← hlength, delay, hbase, hmax]
    case probed => exact fun hs => (by cases hs)
  · have hbans : noteBans bans (b, clk') op (b', clk') u = bans u := by
      simp only [noteBans, stateFor, hnew]
    rw [hbans, hnew]
    constructor
    case closed => exact fun hs => (by cases hs)
    case strike => exact h.strike
    case standing =>
      refine fun _ => h.standing ?_
      rw [show (b.entry u).state = .opened from hopen]
      exact CBState.noConfusion
    case probed => exact fun _ => hexpired
  · have hbans : noteBans bans (b, clk) op (b', clk') u = [] := by
      simp only [noteBans, stateFor, hnew]
    rw [hbans, hnew]
    exact ⟨fun _ => rfl, rfl, fun hs => absurd rfl hs, fun hs => (by cases hs)⟩

theorem standing_of_reachable (h : (banned threshold base max start).Reachable ((b, clk), bans)) (u : Url) :
    Standing base max clk.monotonic (bans u) (b.entry u) := by
  generalize hp : ((b, clk), bans) = p at h
  induction h generalizing b clk bans with
  | init =>
    cases hp
    exact standing_fresh ..
  | @step p op p' hreach _ hstep ih =>
    obtain ⟨⟨b₀, clk₀⟩, bans₀⟩ := p
    cases hp
    obtain ⟨hmove, hbans⟩ := Machine.step_of_observed hstep
    have hparams := Reachable.parameters (Machine.Reachable.of_observed hreach)
    have hnext := (ih rfl).step hparams hmove
    rwa [← hbans] at hnext

/-- A row of the report on a url with these bans.  The time that is left of the last one is right to a
twentieth of a second; it is over once a probe is out, and as long as the row says that some is left, the url
is refused. -/
structure Reports (base max now : ℚ) (b : CircuitBreaker) (url : Url) (bans : List Ban)
    (row : QuarantineRow) : Prop where
  active : row.active = true
  strike : row.strike = bans.length
  last : ∃ before ban, bans = before ++ [ban] ∧ row.reason = ban.reason ∧
    row.bannedAt = some ban.clock.time ∧
    |row.remainingS - Max.max 0 (ban.clock.monotonic + min (base * 2 ^ (bans.length - 1)) max - now)| ≤ 1 / 20
  state : row.state = b.stateFor url
  probed : row.state = .halfOpen → row.remainingS = 0
  blocked : 0 < row.remainingS → url ∈ b.blockedUrls now

theorem abs_max_roundTo_sub_le (x : ℚ) : |Max.max 0 (roundTo 1 x) - Max.max 0 x| ≤ 1 / 20 := by
  have hround := abs_roundTo_sub_le 1 x
  have hlip := abs_max_sub_max_le_abs (roundTo 1 x) x 0
  rw [max_comm, max_comm 0 x]
  refine (hlip.trans hround).trans (le_of_eq ?_)
  norm_num

theorem Standing.reports (h : Standing base max clk.monotonic (bans url) (b.entry url)) {row : QuarantineRow}
    (hrow : (b.compatQuarantineSnapshot clk.monotonic).get? url = some row) :
    Reports base max clk.monotonic b url (bans url) row := by
  rw [compatQuarantineSnapshot, Dict.get?_mapValues, get?_snapshot] at hrow
  split at hrow
  · next hs =>
    cases hrow
    obtain ⟨before, ban, hbans, huntil, hat, hreason⟩ := h.standing hs
    have hspent : ∀ {x : ℚ}, x ≤ 0 → Max.max 0 (roundTo 1 x) = 0 := fun hx =>
      max_eq_left (roundTo_nonpos hx 1)
    constructor
    case active => exact decide_eq_true hs
    case strike => exact h.strike
    case last =>
      refine ⟨before, ban, hbans, hreason, hat, ?_⟩
      rw [← huntil]
      exact abs_max_roundTo_sub_le _
    case state => rfl
    case probed => exact fun hhalf => hspent (sub_nonpos.mpr (h.probed hhalf))
    case blocked =>
      intro hpos
      have hleft : clk.monotonic < b.openUntil url := by
        by_contra hle
        exact absurd (hspent (sub_nonpos.mpr (not_lt.mp hle))) hpos.ne'
      refine (b.mem_blockedUrls _ url).mpr ⟨?_, hleft⟩
      cases hstate : b.stateFor url with
      | closed => exact absurd hstate hs
      | opened => rfl
      | halfOpen => exact absurd (h.probed hstate) (not_le.mpr hleft)
  · cases hrow

/-- Whatever has happened to a breaker, its report has a row for exactly the urls that have been banned since
they were last CLOSED, and the row tells how often, when and why last, and for how long still. -/
theorem quarantine_of_reachable (h : (banned threshold base max start).Reachable ((b, clk), bans))
    (url : Url) :
    ((b.compatQuarantineSnapshot clk.monotonic).get? url = none ↔ bans url = []) ∧
      ∀ row, (b.compatQuarantineSnapshot clk.monotonic).get? url = some row →
        Reports base max clk.monotonic b url (bans url) row := by
  have hstanding := standing_of_reachable h url
  refine ⟨?_, fun row => hstanding.reports⟩
  rw [compatQuarantineSnapshot, Dict.get?_mapValues, get?_snapshot]
  by_cases hs : b.stateFor url = .closed
  · rw [if_neg (not_not.mpr hs)]
    exact iff_of_true rfl (hstanding.closed hs)
  · rw [if_pos hs]
    refine iff_of_false (by simp) ?_
    obtain ⟨before, ban, hbans, -⟩ := hstanding.standing hs
    rw [hbans]
    exact List.append_ne_nil_of_right_ne_nil _ (List.cons_ne_nil _ _)

theorem quarantine_second_ban : ∃ s bans, (banned 1 60 3600 ⟨0, 1000⟩).Reachable (s, bans) ∧
    ∃ row, (s.1.compatQuarantineSnapshot s.2.monotonic).get? "http://10.0.0.1:8080" = some row ∧
      row.remainingS = 60 ∧
      Reports 60 3600 s.2.monotonic s.1 "http://10.0.0.1:8080" (bans "http://10.0.0.1:8080") row := by
  obtain ⟨⟨s, bans⟩, hreach, hrow⟩ := Machine.exists_reachable
    (M := banned 1 60 3600 ⟨0, 1000⟩)
    (P := fun p => ((p.1.1.compatQuarantineSnapshot p.1.2.monotonic).get? "http://10.0.0.1:8080").map
      QuarantineRow.remainingS = some 60)
    [.recordFailure "http://10.0.0.1:8080" 1 "consecutive failures", .elapse 60,
      .allowRequest "http://10.0.0.1:8080", .recordFailure "http://10.0.0.1:8080" 2 "consecutive failures",
      .elapse 60] (by decide +kernel)
  obtain ⟨row, hget, hremaining⟩ := Option.map_eq_some_iff.mp hrow
  exact ⟨s, bans, hreach, row, hget, hremaining, (quarantine_of_reachable hreach _).2 row hget⟩

end CircuitBreaker

end ProxySplit
