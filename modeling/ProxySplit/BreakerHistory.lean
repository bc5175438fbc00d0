import ProxySplit.CircuitBreaker

namespace ProxySplit.CircuitBreaker

open Lib

def Op.url : Op → Option Url
  | .recordFailure url .. => some url
  | .recordSuccess url => some url
  | .allowRequest url => some url
  | .release url => some url
  | .elapse _ => none

variable {b b' : CircuitBreaker} {clk : Clock} {url u : Url}

inductive Moves (b : CircuitBreaker) (clk : Clock) (url : Url) : CircuitBreaker → Prop
  | opened (reason : String) : b.stateFor url ≠ .opened →
      Moves b clk url ((b.openBan clk url reason).settle url)
  | closed : b.stateFor url = .halfOpen → Moves b clk url ((b.close url).settle url)
  | probed : b.stateFor url = .opened → Moves b clk url (b.takeProbe url)
  | released : Moves b clk url (b.release (.empty : ProxyStats Unit) url).1

section Steps

variable {threshold : Nat} {base max : ℚ} {start : Clock} {clk' : Clock} {op : Op}

theorem moves_of_step (h : (machine threshold base max start).step (b, clk) op = some (b', clk')) :
    b' = b ∨ ∃ url, op.url = some url ∧ Moves b clk url b' := by
  cases op with
  | recordFailure url c reason =>
    cases h
    by_cases hc : c < b.threshold
    · exact .inl (recordFailure_of_lt hc)
    by_cases hopen : b.stateFor url = .opened
    · exact .inl (recordFailure_of_opened hopen)
    refine .inr ⟨url, rfl, ?_⟩
    rw [recordFailure_of_not_opened (not_lt.mp hc) hopen]
    exact .opened reason hopen
  | recordSuccess url =>
    cases h
    by_cases hs : b.stateFor url = .halfOpen
    · refine .inr ⟨url, rfl, ?_⟩
      rw [recordSuccess_of_halfOpen hs]
      exact .closed hs
    · exact .inl (by rw [recordSuccess_of_not_halfOpen hs])
  | allowRequest url =>
    cases h
    rcases b.allowEnter_cases clk.monotonic url with hsame | ⟨hopen, -, hprobe⟩
    · exact .inl hsame
    · refine .inr ⟨url, rfl, ?_⟩
      rw [hprobe]
      exact .probed hopen
  | release url =>
    cases h
    exact .inr ⟨url, rfl, .released⟩
  | elapse dt =>
    simp only [machine] at h
    split at h
    · cases h
      exact .inl rfl
    · cases h

theorem Moves.probeInv (h : Moves b clk url b') (hinv : b.ProbeInv) : b'.ProbeInv := by
  cases h with
  | opened reason hopen => exact hinv.openBan clk url reason
  | closed hs => exact hinv.close url
  | probed hopen => exact hinv.takeProbe url
  | released => exact hinv.release _ url

theorem Moves.pending (h : Moves b clk url b') (hinv : b.ProbeInv) (hpending : b.Pending) :
    b'.Pending := by
  cases h with
  | opened reason hopen => exact hpending.settle rfl rfl
  | closed hs => exact hpending.settle rfl rfl
  | probed hopen => exact hpending.takeProbe hinv
  | released => exact hpending.release _

end Steps

section Frame

structure Untouched (b b' : CircuitBreaker) (u : Url) : Prop where
  entry : b'.breakers.get? u = b.breakers.get? u
  probe : b'.probeEvents.get? u = b.probeEvents.get? u
  event : ∀ ev, b.probeEvents.get? u = some ev → b'.events[ev]? = b.events[ev]?

theorem Untouched.refl (b : CircuitBreaker) (u : Url) : Untouched b b u := ⟨rfl, rfl, fun _ _ => rfl⟩

theorem untouched_settle {b₁ : CircuitBreaker} (hpending : b.Pending)
    (hprobe : b₁.probeEvents = b.probeEvents) (hevents : b₁.events = b.events)
    (hentry : b₁.breakers.get? u = b.breakers.get? u) (hu : u ≠ url) :
    Untouched b (b₁.settle url) u where
  entry := by rw [breakers_settle, hentry]
  probe := by rw [get?_probeEvents_settle, if_neg hu, hprobe]
  event ev hev := by rw [hpending.getElem?_events_settle hprobe hev hu, hevents]

theorem Moves.untouched (h : Moves b clk url b') (hinv : b.ProbeInv) (hpending : b.Pending)
    (hu : u ≠ url) : Untouched b b' u := by
  have hset : ∀ e, (b.breakers.set url e).get? u = b.breakers.get? u := by
    intro e
    rw [Dict.get?_set, if_neg hu]
  cases h with
  | opened reason hopen => exact untouched_settle hpending rfl rfl (hset _) hu
  | closed hs => exact untouched_settle hpending rfl rfl (hset _) hu
  | probed hopen =>
    constructor
    · exact hset _
    · rw [takeProbe, Dict.get?_set, if_neg hu]
    · intro ev hev
      exact List.getElem?_append_left (hinv.allocated u ev hev)
  | released =>
    unfold release
    apply untouched_settle hpending
    · split <;> rfl
    · split <;> rfl
    · split
      · rfl
      · exact hset _
    · exact hu

end Frame

structure BanRecord where
  opens : Nat
  openedAt : ℚ
  deriving DecidableEq

namespace BanRecord

def blank : BanRecord := ⟨0, 0⟩

def note (r : BanRecord) (now : ℚ) : (before after : CBState) → BanRecord
  | _, .closed => { r with opens := 0 }
  | .opened, .opened => r
  | _, .opened => ⟨r.opens + 1, now⟩
  | _, .halfOpen => r

end BanRecord

def ledger (records : Url → BanRecord) (s : CircuitBreaker × Clock) (_ : Op)
    (s' : CircuitBreaker × Clock) : Url → BanRecord :=
  fun url => (records url).note s.2.monotonic (s.1.stateFor url) (s'.1.stateFor url)

structure Ledgered (base max : ℤ) (r : BanRecord) (e : BreakerEntry) : Prop where
  strike : e.strike = r.opens
  closed : e.state = .closed → e.strike = 0
  struck : e.state ≠ .closed → 1 ≤ e.strike
  banned : e.state = .opened → e.openUntil = r.openedAt + min (base * 2 ^ (e.strike - 1)) max

section Ledger

variable {base max : ℤ} {r : BanRecord} {e : BreakerEntry} {now : ℚ}

theorem Ledgered.fresh : Ledgered base max .blank .fresh where
  strike := rfl
  closed _ := rfl
  struck h := absurd rfl h
  banned h := by cases h

theorem Ledgered.same (h : Ledgered base max r e) : Ledgered base max (r.note now e.state e.state) e := by
  obtain ⟨state, strike, openUntil, bannedAt, reason⟩ := e
  cases state with
  | closed => exact ⟨h.closed rfl, h.closed, h.struck, h.banned⟩
  | opened => exact h
  | halfOpen => exact h

theorem Ledgered.close (now : ℚ) (before : CBState) (openUntil : ℚ) (bannedAt : Option ℚ)
    (reason : String) :
    Ledgered base max (r.note now before .closed) ⟨.closed, 0, openUntil, bannedAt, reason⟩ where
  strike := by cases before <;> rfl
  closed _ := rfl
  struck h := absurd rfl h
  banned h := by cases h

theorem Ledgered.probe (h : Ledgered base max r e) (hopen : e.state = .opened) :
    Ledgered base max (r.note now e.state .halfOpen) { e with state := .halfOpen } where
  strike := by rw [hopen]; exact h.strike
  closed h := by cases h
  struck _ := h.struck (by rw [hopen]; decide)
  banned h := by cases h

theorem Ledgered.reopen (h : Ledgered base max r e) (hopen : e.state ≠ .opened) (bannedAt : Option ℚ)
    (reason : String) : Ledgered base max (r.note now e.state .opened)
      ⟨.opened, e.strike + 1, now + min (base * 2 ^ e.strike) max, bannedAt, reason⟩ := by
  have hnote : r.note now e.state .opened = ⟨r.opens + 1, now⟩ := by
    cases hs : e.state with
    | opened => exact absurd hs hopen
    | closed => rfl
    | halfOpen => rfl
  rw [hnote]
  constructor
  · exact congrArg (· + 1) h.strike
  · rintro ⟨⟩
  · exact fun _ => Nat.succ_pos _
  · exact fun _ => rfl

theorem entry_release (b : CircuitBreaker) (stats : ProxyStats K) (url : Url) :
    (b.release stats url).1.entry url = { b.entry url with state := .closed, strike := 0 } := by
  unfold release
  rw [entry_settle]
  split
  · next hnone => simp [entry, hnone, BreakerEntry.fresh]
  · next e hsome => simp [entry, hsome]

theorem entry_release_of_ne (stats : ProxyStats K) (h : u ≠ url) :
    (b.release stats url).1.entry u = b.entry u := by
  unfold release
  rw [entry_settle]
  split
  · rfl
  · rw [entry_set, if_neg h]

theorem delay_eq (hbase : b.baseDelay = base) (hmax : b.maxDelay = max) (strike : Nat) :
    b.delay (strike + 1) = (min (base * 2 ^ strike) max : ℤ) := by
  rw [delay, hbase, hmax]
  push_cast
  rfl

theorem Ledgered.moves (hbase : b.baseDelay = base) (hmax : b.maxDelay = max)
    (h : Ledgered base max r (b.entry url)) (hmoves : Moves b clk url b') :
    Ledgered base max (r.note clk.monotonic (b.stateFor url) (b'.stateFor url)) (b'.entry url) := by
  cases hmoves with
  | opened reason hopen =>
    simp only [stateFor, entry_settle, entry_openBan, if_true, delay_eq hbase hmax]
    exact h.reopen hopen _ _
  | closed hs =>
    simp only [stateFor, entry_settle, entry_close, if_true]
    exact .close ..
  | probed hopen =>
    simp only [stateFor, entry_takeProbe, if_true]
    exact h.probe hopen
  | released =>
    simp only [stateFor, entry_release]
    exact .close ..

end Ledger

section Runs

variable {threshold : Nat} {base max : ℤ} {start clk' : Clock} {op : Op}
  {records : Url → BanRecord}

def recorded (threshold : Nat) (base max : ℤ) (start : Clock) :
    Machine ((CircuitBreaker × Clock) × (Url → BanRecord)) Op :=
  (machine threshold base max start).observed (fun _ => .blank) ledger

structure Kept (base max : ℤ) (b : CircuitBreaker) (records : Url → BanRecord) : Prop where
  probes : b.ProbeInv
  pending : b.Pending
  ledgered : ∀ url, Ledgered base max (records url) (b.entry url)

theorem Kept.step (hbase : b.baseDelay = base) (hmax : b.maxDelay = max) (h : Kept base max b records)
    (hstep : (machine threshold base max start).step (b, clk) op = some (b', clk')) :
    Kept base max b' (ledger records (b, clk) op (b', clk')) := by
  rcases moves_of_step hstep with rfl | ⟨url, -, hmoves⟩
  · exact ⟨h.probes, h.pending, fun u => (h.ledgered u).same⟩
  · refine ⟨hmoves.probeInv h.probes, hmoves.pending h.probes h.pending, fun u => ?_⟩
    by_cases hu : u = url
    · subst hu
      exact (h.ledgered u).moves hbase hmax hmoves
    · have hsame : b'.entry u = b.entry u :=
        congrArg (·.getD .fresh) (hmoves.untouched h.probes h.pending hu).entry
      simp only [ledger, stateFor, hsame]
      exact (h.ledgered u).same

theorem kept_of_reachable (h : (recorded threshold base max start).Reachable ((b, clk), records)) :
    Kept base max b records := by
  generalize hp : ((b, clk), records) = p at h
  induction h generalizing b clk records with
  | init =>
    cases hp
    exact ⟨.new .., .new .., fun _ => .fresh⟩
  | @step p op p' hreach _ hstep ih =>
    obtain ⟨⟨b₀, clk₀⟩, records₀⟩ := p
    cases hp
    obtain ⟨hmove, hrecords⟩ := Machine.step_of_observed hstep
    have hparams : b₀.parameters = (threshold, (base : ℚ), (max : ℚ)) :=
      Reachable.parameters (Machine.Reachable.of_observed hreach)
    simp only [parameters, Prod.mk.injEq] at hparams
    have hkept := (ih rfl).step hparams.2.1 hparams.2.2 hmove
    rwa [← hrecords] at hkept

/-- How the breaker holds a url: a probe event is there exactly if the url is HALF_OPEN, so that
`allow_request` finds one to wait for, and the entry agrees with the record. -/
structure Represents (base max : ℤ) (b : CircuitBreaker) (records : Url → BanRecord) (url : Url) :
    Prop where
  event : (b.probeEvents.get? url).isSome ↔ b.stateFor url = .halfOpen
  waits : b.stateFor url = .halfOpen → ∀ now, ∃ ev, b.allowEnter now url = (.wait ev, b)
  ledgered : Ledgered base max (records url) (b.entry url)

theorem Kept.represents (h : Kept base max b records) (url : Url) :
    Represents base max b records url where
  event := h.probes.registered url
  waits hhalf now := by
    obtain ⟨ev, hev⟩ := Option.isSome_iff_exists.mp ((h.probes.registered url).mpr hhalf)
    exact ⟨ev, by simp [allowEnter, hhalf, hev]⟩
  ledgered := h.ledgered url

/-- In every state of every run the breaker holds every url as its record says, and no operation
touches another url than its own. -/
theorem represents_of_reachable
    (h : (recorded threshold base max start).Reachable ((b, clk), records)) :
    (∀ url, Represents base max b records url) ∧
      ∀ op b' clk', (machine threshold base max start).step (b, clk) op = some (b', clk') →
        ∀ u, op.url ≠ some u → Untouched b b' u := by
  have hkept := kept_of_reachable h
  refine ⟨hkept.represents, fun op b' clk' hstep u hu => ?_⟩
  rcases moves_of_step hstep with rfl | ⟨url, hurl, hmoves⟩
  · exact .refl b' u
  · refine hmoves.untouched hkept.probes hkept.pending ?_
    rintro rfl
    exact hu hurl

theorem represents_second_ban : ∃ s records, (recorded 1 60 3600 ⟨0, 0⟩).Reachable (s, records) ∧
    s.1.strike "http://10.0.0.1:8080" = 2 ∧
      Represents 60 3600 s.1 records "http://10.0.0.1:8080" := by
  obtain ⟨⟨s, records⟩, hreach, hstrike⟩ := Machine.exists_reachable
    (M := recorded 1 60 3600 ⟨0, 0⟩) (P := fun p => p.1.1.strike "http://10.0.0.1:8080" = 2)
    [.recordFailure "http://10.0.0.1:8080" 1 "consecutive failures", .elapse 60,
      .allowRequest "http://10.0.0.1:8080",
      .recordFailure "http://10.0.0.1:8080" 2 "consecutive failures"] (by decide +kernel)
  exact ⟨s, records, hreach, hstrike, (represents_of_reachable hreach).1 _⟩

end Runs

end ProxySplit.CircuitBreaker
