import ProxySplit.BreakerHistory
import ProxySplit.PoolMembership
import Mathlib.Data.Finset.Order

namespace ProxySplit

open Lib

namespace CircuitBreaker

variable {b : CircuitBreaker} {clk : Clock} {url u : Url}

theorem entry_recordFailure {c : Nat} {reason : String} (h : u ≠ url ∨ b.stateFor url = .opened) :
    (b.recordFailure clk url c reason).entry u = b.entry u := by
  by_cases hopen : b.stateFor url = .opened
  · rw [recordFailure_of_opened hopen]
  by_cases hc : c < b.threshold
  · rw [recordFailure_of_lt hc]
  · rw [recordFailure_of_not_opened (not_lt.mp hc) hopen, entry_settle, entry_openBan,
      if_neg (h.resolve_right hopen)]

theorem entry_recordSuccess (stats : ProxyStats K) (url u : Url) :
    (b.recordSuccess stats url).1.entry u = b.entry u ∨
      b.stateFor u = .halfOpen ∧ (b.recordSuccess stats url).1.stateFor u = .closed := by
  by_cases hs : b.stateFor url = .halfOpen
  · rw [recordSuccess_of_halfOpen hs, entry_settle, stateFor_settle]
    by_cases hu : u = url
    · subst hu
      exact .inr ⟨hs, by simp [stateFor]⟩
    · exact .inl (by rw [entry_close, if_neg hu])
  · exact .inl (by rw [recordSuccess_of_not_halfOpen hs])

theorem entry_allowEnter (now : ℚ) (h : u ≠ url) : (b.allowEnter now url).2.entry u = b.entry u := by
  rcases b.allowEnter_cases now url with hsame | ⟨-, -, hprobe⟩
  · rw [hsame]
  · rw [hprobe, entry_takeProbe, if_neg h]

end CircuitBreaker

namespace Pool

variable {s s' : Pool K} {op : Op} {url u : Url}

def now (s : Pool K) : ℚ := s.health.clock.monotonic

def blocked (s : Pool K) : List Url := s.health.breaker.blockedUrls s.now

/-- The url is OPEN, and its ban has run out. -/
def Expired (s : Pool K) (url : Url) : Prop := s.health.breaker.ExpiredOpen s.now url

def breakerAfter (s : Pool K) : Op → CircuitBreaker
  | .recordFailure url => (s.health.recordFailure url).breaker
  | .recordSuccess url n lat => (s.health.recordSuccess url n lat).breaker
  | .allowRequest url => (s.health.allowRequest url).breaker
  | .retest true => s.candidates.head?.elim s.health.breaker fun url => (s.health.release url).breaker
  | .retest false => s.candidates.head?.elim s.health.breaker fun url => (s.health.retestFailed url).breaker
  | .add .. | .remove _ | .collect .. | .finish .. | .setGlobalRps _ | .getLimiter _ | .perProxyChunkSize _
  | .warmup .. | .elapse _ | .beginRound => s.health.breaker

def candidatesAfter (s : Pool K) : Op → List Url
  | .beginRound => s.health.breaker.expiredOpen s.now
  | .retest _ => s.candidates.tail
  | .recordFailure _ | .recordSuccess .. | .allowRequest _ | .add .. | .remove _ | .collect .. | .finish ..
  | .setGlobalRps _ | .getLimiter _ | .perProxyChunkSize _ | .warmup .. | .elapse _ => s.candidates

@[simp] theorem health_add (s : Pool K) (url : Url) (tags : List String) :
    (s.add url tags).health = s.health := by
  unfold add
  split
  · rfl
  · rfl

@[simp] theorem candidates_add (s : Pool K) (url : Url) (tags : List String) :
    (s.add url tags).candidates = s.candidates := by
  unfold add
  split
  · rfl
  · rfl

theorem health_retested (s : Pool K) (url : Url) :
    (s.retested url true).health = s.health.release url := by
  simp only [retested, if_true]
  split
  · rfl
  · exact health_add ..

theorem after_of_step (h : s.step op = some s') : s.now ≤ s'.now ∧
    s'.health.breaker = s.breakerAfter op ∧ s'.candidates = s.candidatesAfter op := by
  cases op with
  | elapse dt =>
    obtain ⟨hdt, rfl⟩ := elapse_of_step h
    exact ⟨le_add_of_nonneg_right hdt, rfl, rfl⟩
  | finish i alive =>
    obtain ⟨r, -, rfl⟩ := finish_of_step h
    unfold finish replaceIf
    split
    · exact ⟨le_rfl, rfl, rfl⟩
    · exact ⟨le_rfl, rfl, rfl⟩
  | warmup u n lat =>
    obtain ⟨-, rfl⟩ := warmup_of_step h
    exact ⟨le_rfl, rfl, rfl⟩
  | beginRound =>
    obtain ⟨-, rfl⟩ := beginRound_of_step h
    exact ⟨le_rfl, rfl, rfl⟩
  | retest ok =>
    obtain ⟨url, rest, hc, rfl⟩ := retest_of_step h
    cases ok with
    | false =>
      simp only [breakerAfter, candidatesAfter, hc]
      exact ⟨le_rfl, rfl, rfl⟩
    | true =>
      simp only [now, breakerAfter, candidatesAfter, hc, health_retested]
      exact ⟨le_rfl, rfl, rfl⟩
  | add url tags =>
    cases h
    simp only [now, proxyAdd]
    split
    · rw [health_add, candidates_add]
      exact ⟨le_rfl, rfl, rfl⟩
    · exact ⟨le_rfl, rfl, rfl⟩
  | remove url =>
    cases h
    unfold remove
    split
    · exact ⟨le_rfl, rfl, rfl⟩
    · exact ⟨le_rfl, rfl, rfl⟩
  | getLimiter url =>
    cases h
    unfold getLimiter
    split
    · exact ⟨le_rfl, rfl, rfl⟩
    · exact ⟨le_rfl, rfl, rfl⟩
  | collect | setGlobalRps | recordFailure | recordSuccess | perProxyChunkSize | allowRequest =>
    cases h
    exact ⟨le_rfl, rfl, rfl⟩

def Takes (s : Pool K) (u : Url) : Op → Prop
  | .allowRequest url => url = u
  | .retest true => s.candidates.head? = some u
  | .retest false | .recordFailure _ | .recordSuccess .. | .add .. | .remove _ | .collect .. | .finish ..
  | .setGlobalRps _ | .getLimiter _ | .perProxyChunkSize _ | .warmup .. | .elapse _ | .beginRound => False

theorem entry_of_opened (hopen : s.health.breaker.stateFor u = .opened) (htakes : ¬ s.Takes u op) :
    (s.breakerAfter op).entry u = s.health.breaker.entry u := by
  have hfailure : ∀ url c reason, (s.health.breaker.recordFailure s.health.clock url c reason).entry u =
      s.health.breaker.entry u := by
    intro url c reason
    by_cases hu : u = url
    · exact CircuitBreaker.entry_recordFailure (.inr (hu ▸ hopen))
    · exact CircuitBreaker.entry_recordFailure (.inl hu)
  cases op with
  | recordFailure url =>
    rw [breakerAfter, ProxyHealth.recordFailure_breaker]
    exact hfailure ..
  | recordSuccess url n lat =>
    rw [breakerAfter, ProxyHealth.recordSuccess_breaker]
    rcases CircuitBreaker.entry_recordSuccess _ url u with hsame | ⟨hhalf, -⟩
    · exact hsame
    · rw [hopen] at hhalf
      cases hhalf
  | allowRequest url => exact CircuitBreaker.entry_allowEnter _ fun hu => htakes hu.symm
  | retest ok =>
    cases hc : s.candidates.head? with
    | none =>
      cases ok with
      | false => simp only [breakerAfter, hc, Option.elim_none]
      | true => simp only [breakerAfter, hc, Option.elim_none]
    | some url =>
      cases ok with
      | false =>
        simp only [breakerAfter, hc, Option.elim_some]
        exact hfailure ..
      | true =>
        simp only [breakerAfter, hc, Option.elim_some]
        exact CircuitBreaker.entry_release_of_ne s.health.stats fun hu => htakes (hu ▸ hc)
  | add | remove | collect | finish | setGlobalRps | getLimiter | perProxyChunkSize | warmup | elapse
  | beginRound => rfl

theorem Expired.step (h : s.Expired u) (htakes : ¬ s.Takes u op) (hstep : s.step op = some s') :
    s'.Expired u := by
  obtain ⟨hnow, hbreaker, -⟩ := after_of_step hstep
  have hentry := entry_of_opened h.1 htakes
  rw [← hbreaker] at hentry
  refine ⟨?_, le_trans ?_ hnow⟩
  · rw [CircuitBreaker.stateFor, hentry]
    exact h.1
  · rw [CircuitBreaker.openUntil, hentry]
    exact h.2

/-- The urls that the round of the checker began with, the answers of those it has retested, and the urls that
requests have asked for since. -/
structure Round where
  begun : List Url
  retested : List (Url × Bool)
  asked : Finset Url
  deriving DecidableEq

def noteRound (r : Round) (s : Pool K) (op : Op) (s' : Pool K) : Round :=
  match op with
  | .beginRound => ⟨s'.candidates, [], ∅⟩
  | .allowRequest url => { r with asked := insert url r.asked }
  | .retest ok => { r with retested := r.retested ++ s.candidates.head?.toList.map (·, ok) }
  | _ => r

def rounds (p : Pool K) : Machine (Pool K × Round) Op := (machine p).observed ⟨[], [], ∅⟩ noteRound

/-- The round takes its urls in turn.  One that no request has asked for since it began, and that it has not
given back, is as it was when the round began. -/
structure Round.Kept (s : Pool K) (r : Round) : Prop where
  order : r.retested.map Prod.fst ++ s.candidates = r.begun
  nodup : r.begun.Nodup
  expired : ∀ url ∈ r.begun, url ∉ r.asked → (url, true) ∉ r.retested → s.Expired url

variable {r : Round} {p : Pool K}

theorem nodup_expiredOpen (b : CircuitBreaker) (t : ℚ) : (b.expiredOpen t).Nodup :=
  (List.filter_sublist.map _).nodup b.breakers.nodup

theorem Round.Kept.step (h : r.Kept s) (hstep : s.step op = some s') : (noteRound r s op s').Kept s' := by
  obtain ⟨-, hbreaker, hcands⟩ := after_of_step hstep
  have hexpired : ∀ url, s.Expired url → ¬ s.Takes url op → s'.Expired url :=
    fun url hurl htakes => hurl.step htakes hstep
  cases op with
  | beginRound =>
    obtain ⟨-, rfl⟩ := beginRound_of_step hstep
    exact ⟨rfl, nodup_expiredOpen .., fun url hurl _ _ => (CircuitBreaker.mem_expiredOpen ..).mp hurl⟩
  | allowRequest url =>
    refine ⟨hcands.symm ▸ h.order, h.nodup, fun u hu hasked hback => hexpired u ?_ ?_⟩
    · exact h.expired u hu (fun hmem => hasked (Finset.mem_insert_of_mem hmem)) hback
    · rintro rfl
      exact hasked (Finset.mem_insert_self ..)
  | retest ok =>
    obtain ⟨url, rest, hc, rfl⟩ := retest_of_step hstep
    have hnote : (noteRound r s (.retest ok) { s.retested url ok with candidates := rest }).retested =
        r.retested ++ [(url, ok)] := by
      simp [noteRound, hc]
    refine ⟨?_, h.nodup, fun u hu hasked hback => hexpired u ?_ ?_⟩
    · have horder := h.order
      rw [hc] at horder
      rw [hnote]
      simpa [noteRound] using horder
    · rw [hnote] at hback
      exact h.expired u hu hasked fun hmem => hback (List.mem_append_left _ hmem)
    · cases ok with
      | false => exact id
      | true =>
        rw [hnote] at hback
        intro htakes
        have hurl : url = u := by simpa [Takes, hc] using htakes
        exact hback (by simp [hurl])
  | add | remove | collect | finish | setGlobalRps | getLimiter | recordFailure | recordSuccess
  | perProxyChunkSize | warmup | elapse =>
    exact ⟨hcands.symm ▸ h.order, h.nodup, fun u hu hasked hback =>
      hexpired u (h.expired u hu hasked hback) id⟩

theorem kept_of_reachable (hp : p.candidates = []) (h : (rounds p).Reachable (s, r)) : r.Kept s := by
  refine h.invariant (I := fun q => q.2.Kept q.1) ⟨hp, List.nodup_nil, fun _ hmem => (by cases hmem)⟩ ?_
  rintro q op q' hI - hstep
  obtain ⟨hs, hnote⟩ := Machine.step_of_observed hstep
  rw [hnote]
  exact hI.step hs

theorem not_mem_blocked (h : s.Expired url) : url ∉ s.blocked := by
  intro hmem
  exact absurd ((CircuitBreaker.mem_blockedUrls ..).mp hmem).2 (not_lt.mpr h.2)

/-- What a retest that fails does: nothing, to a url that no request has asked for since the round began. -/
theorem Round.Kept.failed (h : r.Kept s) (hstep : s.step (.retest false) = some s') :
    ∃ url ∈ s.candidates.head?, (url ∉ r.asked → s'.health.breaker = s.health.breaker) ∧
      ∀ u ∈ s'.blocked, u ∈ s.blocked ∨ u = url ∧ url ∈ r.asked := by
  obtain ⟨-, hbreaker, -⟩ := after_of_step hstep
  obtain ⟨url, rest, hc, rfl⟩ := retest_of_step hstep
  have hhead : s.candidates.head? = some url := by rw [hc, List.head?_cons]
  have hbegun : url ∈ r.begun := by
    rw [← h.order, hc]
    exact List.mem_append_right _ (.head _)
  have hback : (url, true) ∉ r.retested := by
    intro hmem
    have hnodup := h.nodup
    rw [← h.order, hc, List.nodup_append] at hnodup
    exact hnodup.2.2 url (List.mem_map_of_mem hmem) url (.head _) rfl
  have hsame : url ∉ r.asked → s.breakerAfter (.retest false) = s.health.breaker := by
    intro hasked
    simp only [breakerAfter, hhead, Option.elim_some]
    exact CircuitBreaker.recordFailure_of_opened (h.expired url hbegun hasked hback).1
  refine ⟨url, hhead, fun hasked => hbreaker.trans (hsame hasked), fun u hu => ?_⟩
  rw [blocked, hbreaker] at hu
  by_cases hasked : url ∈ r.asked
  · by_cases hurl : u = url
    · exact .inr ⟨hurl, hasked⟩
    refine .inl ?_
    simp only [breakerAfter, hhead, Option.elim_some, CircuitBreaker.mem_blockedUrls] at hu
    rw [blocked, CircuitBreaker.mem_blockedUrls]
    have hentry : (s.health.retestFailed url).breaker.entry u = s.health.breaker.entry u :=
      CircuitBreaker.entry_recordFailure (.inl hurl)
    rw [CircuitBreaker.stateFor, CircuitBreaker.openUntil, hentry] at hu
    exact hu
  · rw [hsame hasked] at hu
    exact .inl hu

/-- What a retest that passes does: it lifts any ban, also one that is newer than the round. -/
theorem passed_of_step (hstep : s.step (.retest true) = some s') : ∃ url ∈ s.candidates.head?,
    s'.health.breaker.stateFor url = .closed ∧ s'.health.breaker.strike url = 0 ∧
      s'.health.stats.consecutiveFailures url = 0 ∧ url ∈ s'.all ∧ url ∉ s'.blocked ∧
      ∀ u, u ≠ url → s'.health.breaker.entry u = s.health.breaker.entry u := by
  obtain ⟨url, rest, hc, rfl⟩ := retest_of_step hstep
  have hentry : (s.retested url true).health.breaker.entry url =
      { s.health.breaker.entry url with state := .closed, strike := 0 } := by
    rw [health_retested]
    exact CircuitBreaker.entry_release _ s.health.stats url
  have hhead : s.candidates.head? = some url := by rw [hc, List.head?_cons]
  have hclosed : (s.retested url true).health.breaker.stateFor url = .closed := congrArg (·.state) hentry
  refine ⟨url, hhead, hclosed, congrArg (·.strike) hentry, ?_, ?_, ?_, fun u hu => ?_⟩
  · change (s.retested url true).health.stats.consecutiveFailures url = 0
    rw [health_retested]
    exact (ProxyStats.consecutiveFailures_reset ..).trans (if_pos rfl)
  · by_cases hmem : url ∈ s.all
    · simp [retested, hmem]
    · simp [retested, add, hmem]
  · intro hblocked
    have hopen := ((CircuitBreaker.mem_blockedUrls ..).mp hblocked).1
    exact absurd (hclosed.symm.trans hopen) (by decide)
  · change (s.retested url true).health.breaker.entry u = _
    rw [health_retested]
    exact CircuitBreaker.entry_release_of_ne s.health.stats hu

/-- In any history the checker retests each proxy whose ban had run out when its round began once, in the
order in which they were first banned.  A retest that fails does nothing: the proxy is not banned again, and
it is retested in the next round.  Only if a request has asked for it since the round began, it may ban it. -/
theorem round_of_reachable (hp : p.candidates = []) (h : (rounds p).Reachable (s, r)) :
    (r.retested.map Prod.fst ++ s.candidates = r.begun ∧ r.begun.Nodup) ∧
    (∀ url ∈ r.begun, url ∉ r.asked → (url, true) ∉ r.retested → s.Expired url ∧ url ∉ s.blocked) ∧
    (∀ s', s.step (.retest false) = some s' → ∃ url ∈ s.candidates.head?,
      (url ∉ r.asked → s'.health.breaker = s.health.breaker) ∧
        ∀ u ∈ s'.blocked, u ∈ s.blocked ∨ u = url ∧ url ∈ r.asked) ∧
    (∀ s', s.step (.retest true) = some s' → ∃ url ∈ s.candidates.head?,
      s'.health.breaker.stateFor url = .closed ∧ s'.health.breaker.strike url = 0 ∧
        s'.health.stats.consecutiveFailures url = 0 ∧ url ∈ s'.all ∧ url ∉ s'.blocked ∧
        ∀ u, u ≠ url → s'.health.breaker.entry u = s.health.breaker.entry u) ∧
    ∀ s', s.step .beginRound = some s' →
      s'.candidates = s.health.breaker.expiredOpen s.health.clock.monotonic ∧
      (∀ url, url ∈ s'.candidates ↔ s.Expired url) ∧ s'.health = s.health ∧ ∀ url, (url, false) ∈ r.retested → url ∉ r.asked → url ∈ s'.candidates := by
  have hkept := kept_of_reachable hp h
  refine ⟨⟨hkept.order, hkept.nodup⟩, fun url hurl hasked hback => ?_, fun s' hstep => hkept.failed hstep,
    fun s' hstep => passed_of_step hstep, fun s' hstep => ?_⟩
  · have hexpired := hkept.expired url hurl hasked hback
    exact ⟨hexpired, not_mem_blocked hexpired⟩
  · obtain ⟨-, rfl⟩ := beginRound_of_step hstep
    have hall : ∀ url, url ∈ s.health.breaker.expiredOpen s.health.clock.monotonic ↔ s.Expired url :=
      fun url => CircuitBreaker.mem_expiredOpen ..
    refine ⟨rfl, hall, rfl, fun url hfailed hasked => (hall url).mpr ?_⟩
    have hnodup : (r.retested.map Prod.fst).Nodup := by
      have hbegun := hkept.nodup
      rw [← hkept.order] at hbegun
      exact hbegun.of_append_left
    have hbegun : url ∈ r.begun := by
      rw [← hkept.order]
      exact List.mem_append_left _ (List.mem_map_of_mem hfailed)
    refine hkept.expired url hbegun hasked fun hback => ?_
    have heq := List.inj_on_of_nodup_map hnodup hfailed hback rfl
    exact Bool.noConfusion (congrArg Prod.snd heq)

theorem retest_bans_good_proxy : ∃ s : Pool Unit, ∃ r, (rounds twoAlive).Reachable (s, r) ∧
    s.health.breaker.stateFor "http://10.0.0.1:8080" = .closed ∧ s.blocked = [] ∧
    ∃ s', s.step (.retest false) = some s' ∧ s'.blocked = ["http://10.0.0.1:8080"] ∧
      ∀ u ∈ s'.blocked, u = "http://10.0.0.1:8080" ∧ "http://10.0.0.1:8080" ∈ r.asked := by
  obtain ⟨⟨s, r⟩, hs, hclosed, hblocked, hhead, hbans⟩ := Machine.exists_reachable (M := rounds twoAlive)
    (P := fun q => q.1.health.breaker.stateFor "http://10.0.0.1:8080" = .closed ∧ q.1.blocked = [] ∧
      q.1.candidates.head? = some "http://10.0.0.1:8080" ∧
      (q.1.step (.retest false)).map blocked = some ["http://10.0.0.1:8080"])
    [.recordFailure "http://10.0.0.1:8080", .elapse 60, .beginRound, .allowRequest "http://10.0.0.1:8080",
      .recordSuccess "http://10.0.0.1:8080" 100 250]
    (by decide +kernel)
  obtain ⟨s', hstep, hbans⟩ := Option.map_eq_some_iff.mp hbans
  obtain ⟨-, -, hfailed, -, -⟩ := round_of_reachable rfl hs
  obtain ⟨url, hurl, -, hall⟩ := hfailed s' hstep
  obtain rfl : "http://10.0.0.1:8080" = url := Option.some.inj (hhead.symm.trans hurl)
  exact ⟨s, r, hs, hclosed, hblocked, s', hstep, hbans,
    fun u hu => (hall u hu).resolve_left (by simp [hblocked])⟩

/-- What a request does to the breaker that can open a url. -/
def Op.Asks : Op → Prop
  | .recordFailure _ | .allowRequest _ => True
  | .retest _ | .recordSuccess .. | .add .. | .remove _ | .collect .. | .finish .. | .setGlobalRps _
  | .getLimiter _ | .perProxyChunkSize _ | .warmup .. | .elapse _ | .beginRound => False

def Heals (b b' : CircuitBreaker) (u : Url) : Prop :=
  b'.entry u = b.entry u ∨ b'.stateFor u = .closed ∧ b'.strike u = 0

theorem Heals.trans {b b₁ b₂ : CircuitBreaker} (h : Heals b b₁ u) (h' : Heals b₁ b₂ u) : Heals b b₂ u := by
  rcases h' with hsame | hclosed
  · rcases h with hsame' | ⟨hclosed, hstrike⟩
    · exact .inl (hsame.trans hsame')
    · refine .inr ⟨?_, ?_⟩
      · rw [CircuitBreaker.stateFor, hsame]
        exact hclosed
      · rw [CircuitBreaker.strike, hsame]
        exact hstrike
  · exact .inr hclosed

theorem heals_of_quiet (hquiet : ¬ op.Asks) (hcands : ∀ url ∈ s.candidates, s.Expired url) (u : Url) :
    Heals s.health.breaker (s.breakerAfter op) u := by
  have hreleased : ∀ url, Heals s.health.breaker (s.health.breaker.release s.health.stats url).1 u := by
    intro url
    by_cases hu : u = url
    · subst hu
      have hentry := CircuitBreaker.entry_release s.health.breaker s.health.stats u
      exact .inr ⟨congrArg (·.state) hentry, congrArg (·.strike) hentry⟩
    · exact .inl (CircuitBreaker.entry_release_of_ne _ hu)
  cases op with
  | recordFailure | allowRequest => exact absurd trivial hquiet
  | recordSuccess url n lat =>
    rw [breakerAfter, ProxyHealth.recordSuccess_breaker]
    by_cases hs : s.health.breaker.stateFor url = .halfOpen
    · rw [CircuitBreaker.recordSuccess_of_halfOpen hs]
      by_cases hu : u = url
      · exact .inr (by simp [CircuitBreaker.stateFor, CircuitBreaker.strike, hu])
      · exact .inl (by simp [hu])
    · exact .inl (by rw [CircuitBreaker.recordSuccess_of_not_halfOpen hs])
  | retest ok =>
    cases hc : s.candidates.head? with
    | none => cases ok <;> exact .inl (by simp [breakerAfter, hc])
    | some url =>
      cases ok with
      | true =>
        simp only [breakerAfter, hc, Option.elim_some]
        exact hreleased url
      | false =>
        have hopen := (hcands url (List.mem_of_mem_head? hc)).1
        refine .inl ?_
        simp only [breakerAfter, hc, Option.elim_some]
        exact congrArg (CircuitBreaker.entry · u) (CircuitBreaker.recordFailure_of_opened hopen)
  | add | remove | collect | finish | setGlobalRps | getLimiter | perProxyChunkSize | warmup | elapse
  | beginRound => exact .inl rfl

theorem expired_of_quiet (hquiet : ¬ op.Asks) (hcands : ∀ url ∈ s.candidates, s.Expired url)
    (hnodup : s.candidates.Nodup) (hstep : s.step op = some s') :
    s'.candidates.Nodup ∧ ∀ url ∈ s'.candidates, s'.Expired url := by
  cases op with
  | beginRound =>
    obtain ⟨-, rfl⟩ := beginRound_of_step hstep
    exact ⟨nodup_expiredOpen .., fun url hurl => (CircuitBreaker.mem_expiredOpen ..).mp hurl⟩
  | retest ok =>
    have hcopy := hstep
    obtain ⟨url, rest, hc, rfl⟩ := retest_of_step hstep
    rw [hc] at hcands hnodup
    obtain ⟨hnot, hrest⟩ := List.nodup_cons.mp hnodup
    refine ⟨hrest, fun u hu => (hcands u (.tail _ hu)).step ?_ hcopy⟩
    cases ok with
    | false => exact id
    | true =>
      intro htakes
      have hurl : url = u := by simpa [Takes, hc] using htakes
      exact hnot (hurl ▸ hu)
  | recordFailure | allowRequest => exact absurd trivial hquiet
  | recordSuccess | add | remove | collect | finish | setGlobalRps | getLimiter | perProxyChunkSize | warmup
  | elapse =>
    obtain ⟨-, -, hafter⟩ := after_of_step hstep
    rw [hafter]
    exact ⟨hnodup, fun url hurl => (hcands url hurl).step id hstep⟩

variable {ls : List Op}

theorem heals_of_run (hcands : ∀ url ∈ s.candidates, s.Expired url) (hnodup : s.candidates.Nodup)
    (hquiet : ∀ op ∈ ls, ¬ op.Asks) (hrun : (machine p).run s ls = some s') :
    s.now ≤ s'.now ∧ ∀ u, Heals s.health.breaker s'.health.breaker u := by
  induction ls generalizing s with
  | nil =>
    cases hrun
    exact ⟨le_rfl, fun u => .inl rfl⟩
  | cons op ls ih =>
    obtain ⟨t, hstep, hrest⟩ := Option.bind_eq_some_iff.mp hrun
    obtain ⟨hop, hquiet⟩ := List.forall_mem_cons.mp hquiet
    obtain ⟨hnow, hbreaker, -⟩ := after_of_step hstep
    obtain ⟨hnodup', hcands'⟩ := expired_of_quiet hop hcands hnodup hstep
    obtain ⟨hnow', hheals⟩ := ih hcands' hnodup' hquiet hrest
    refine ⟨hnow.trans hnow', fun u => Heals.trans ?_ (hheals u)⟩
    rw [hbreaker]
    exact heals_of_quiet hop hcands u

/-- The url is in the pool and has no ban behind it. -/
def Back (s : Pool K) (u : Url) : Prop :=
  s.health.breaker.stateFor u = .closed ∧ s.health.breaker.strike u = 0 ∧ u ∈ s.all

theorem back_of_step (hstep : s.step (.retest true) = some s') (h : s.Back u ∨ s.candidates.head? = some u) :
    s'.Back u := by
  obtain ⟨url, hhead, hclosed, hstrike, -, hback, -, hother⟩ := passed_of_step hstep
  by_cases hu : u = url
  · subst hu
    exact ⟨hclosed, hstrike, hback⟩
  obtain ⟨hclosed, hstrike, hmem⟩ :=
    h.resolve_right fun hhead' => hu (Option.some.inj (hhead'.symm.trans hhead))
  refine ⟨?_, ?_, ?_⟩
  · rw [CircuitBreaker.stateFor, hother u hu]
    exact hclosed
  · rw [CircuitBreaker.strike, hother u hu]
    exact hstrike
  · obtain ⟨url', rest, -, rfl⟩ := retest_of_step hstep
    by_cases hurl : url' ∈ s.all
    · simpa [retested, hurl] using hmem
    · simp [retested, add, hurl, hmem]

theorem exists_retests (p s : Pool K) : ∃ s',
    (machine p).run s (List.replicate s.candidates.length (.retest true)) = some s' ∧
      ∀ u, s.Back u ∨ u ∈ s.candidates → s'.Back u := by
  generalize hc : s.candidates = cands
  induction cands generalizing s with
  | nil => exact ⟨s, rfl, fun u hu => hu.resolve_right (List.not_mem_nil)⟩
  | cons url rest ih =>
    have hstep : s.step (.retest true) = some { s.retested url true with candidates := rest } := by
      rw [step, hc]
    obtain ⟨s', hrun, hback⟩ := ih { s.retested url true with candidates := rest } rfl
    refine ⟨s', Option.bind_eq_some_iff.mpr ⟨_, hstep, hrun⟩, fun u hu => hback u ?_⟩
    rcases hu with hu | hu
    · exact .inl (back_of_step hstep (.inl hu))
    · rcases List.mem_cons.mp hu with rfl | hu
      · exact .inl (back_of_step hstep (.inr (by rw [hc, List.head?_cons])))
      · exact .inr hu

theorem exists_openUntil_le (b : CircuitBreaker) : ∃ t, ∀ u, b.stateFor u = .opened → b.openUntil u ≤ t := by
  obtain ⟨t, ht⟩ := (b.breakers.entries.map (·.2.openUntil)).toFinset.exists_le
  refine ⟨t, fun u hopen => ht _ ?_⟩
  have hentry : (u, b.entry u) ∈ b.breakers.entries := by
    rw [Dict.mem_entries_iff]
    cases he : b.breakers.get? u with
    | none => simp [CircuitBreaker.stateFor, CircuitBreaker.entry, he, BreakerEntry.fresh] at hopen
    | some e => simp [CircuitBreaker.entry, he]
  exact List.mem_toFinset.mpr (List.mem_map.mpr ⟨_, hentry, rfl⟩)

/-- As long as no request fails or asks for a proxy, whatever else happens, no further proxy is blocked and no
strike is added.  The checker alone brings back every banned proxy, once the bans have run out. -/
theorem heals_unused (hidle : s.candidates = []) :
    (∀ ls s', (∀ op ∈ ls, ¬ op.Asks) → (machine p).run s ls = some s' →
      s'.blocked ⊆ s.blocked ∧ ∀ u, s'.health.breaker.strike u ≤ s.health.breaker.strike u) ∧
    (s.all ≠ [] → ∃ dt n s', 0 ≤ dt ∧
      (machine p).run s (.elapse dt :: .beginRound :: List.replicate n (.retest true)) = some s' ∧
      s'.blocked = [] ∧ ∀ u, s.health.breaker.stateFor u = .opened → s'.Back u) := by
  have hcands : ∀ url ∈ s.candidates, s.Expired url := by simp [hidle]
  have hnodup : s.candidates.Nodup := by simp [hidle]
  have hblocked : ∀ ls s', (∀ op ∈ ls, ¬ op.Asks) → (machine p).run s ls = some s' →
      s'.blocked ⊆ s.blocked ∧ ∀ u, s'.health.breaker.strike u ≤ s.health.breaker.strike u := by
    intro ls s' hquiet hrun
    obtain ⟨hnow, hheals⟩ := heals_of_run hcands hnodup hquiet hrun
    refine ⟨fun u hu => ?_, fun u => ?_⟩
    · obtain ⟨hopen, hlt⟩ := (CircuitBreaker.mem_blockedUrls ..).mp hu
      rcases hheals u with hsame | ⟨hclosed, -⟩
      · rw [CircuitBreaker.stateFor, hsame] at hopen
        rw [CircuitBreaker.openUntil, hsame] at hlt
        exact (CircuitBreaker.mem_blockedUrls ..).mpr ⟨hopen, hnow.trans_lt hlt⟩
      · exact absurd (hopen.symm.trans hclosed) (by decide)
    · rcases hheals u with hsame | ⟨-, hstrike⟩
      · rw [CircuitBreaker.strike, hsame]
        exact le_rfl
      · rw [hstrike]
        exact Nat.zero_le _
  refine ⟨hblocked, fun hall => ?_⟩
  obtain ⟨t, ht⟩ := exists_openUntil_le s.health.breaker
  have hdt : 0 ≤ max 0 (t - s.now) := le_max_left ..
  obtain ⟨s₁, helapse, hnow, hbreaker, hidle₁, hall₁⟩ : ∃ s₁, s.step (.elapse (max 0 (t - s.now))) = some s₁ ∧
      t ≤ s₁.now ∧ s₁.health.breaker = s.health.breaker ∧ s₁.candidates = [] ∧ s₁.all = s.all := by
    refine ⟨_, if_pos hdt, ?_, rfl, hidle, rfl⟩
    exact sub_le_iff_le_add'.mp (le_max_right 0 (t - s.now))
  obtain ⟨s₂, hbegin, hexpired⟩ : ∃ s₂, s₁.step .beginRound = some s₂ ∧
      s₂.candidates = s₁.health.breaker.expiredOpen s₁.now := ⟨_, if_pos ⟨hidle₁, hall₁ ▸ hall⟩, rfl⟩
  obtain ⟨s', hretests, hback⟩ := exists_retests p s₂
  have hback : ∀ u, s.health.breaker.stateFor u = .opened → s'.Back u := by
    intro u hopen
    refine hback u (.inr ?_)
    rw [hexpired, hbreaker]
    exact (CircuitBreaker.mem_expiredOpen ..).mpr ⟨hopen, (ht u hopen).trans hnow⟩
  have hrun : (machine p).run s (.elapse (max 0 (t - s.now)) :: .beginRound ::
      List.replicate s₂.candidates.length (.retest true)) = some s' :=
    Option.bind_eq_some_iff.mpr ⟨s₁, helapse, Option.bind_eq_some_iff.mpr ⟨s₂, hbegin, hretests⟩⟩
  have hquiet : ∀ op ∈ Op.elapse (max 0 (t - s.now)) :: .beginRound ::
      List.replicate s₂.candidates.length (.retest true), ¬ op.Asks := by
    intro op hop
    rcases List.mem_cons.mp hop with rfl | hop
    · exact id
    rcases List.mem_cons.mp hop with rfl | hop
    · exact id
    · rw [List.eq_of_mem_replicate hop]
      exact id
  refine ⟨_, _, s', hdt, hrun, List.eq_nil_iff_forall_not_mem.mpr fun u hu => ?_, hback⟩
  have hopen := ((CircuitBreaker.mem_blockedUrls ..).mp ((hblocked _ s' hquiet hrun).1 hu)).1
  exact absurd ((hback u hopen).1.symm.trans ((CircuitBreaker.mem_blockedUrls ..).mp hu).1) (by decide)

theorem heals_after_ban : ∃ s : Pool Unit, (machine twoAlive).Reachable s ∧
    s.blocked = ["http://10.0.0.1:8080"] ∧ ∃ dt n s', 0 ≤ dt ∧
      (machine twoAlive).run s (.elapse dt :: .beginRound :: List.replicate n (.retest true)) = some s' ∧
      s'.blocked = [] ∧ s'.Back "http://10.0.0.1:8080" := by
  obtain ⟨s, hs, hblocked, hopen, hidle, hall⟩ := Machine.exists_reachable (M := machine twoAlive)
    (P := fun s => s.blocked = ["http://10.0.0.1:8080"] ∧
      s.health.breaker.stateFor "http://10.0.0.1:8080" = .opened ∧ s.candidates = [] ∧ s.all ≠ [])
    [.recordFailure "http://10.0.0.1:8080"] (by decide +kernel)
  obtain ⟨dt, n, s', hdt, hrun, hempty, hback⟩ := (heals_unused hidle).2 hall
  exact ⟨s, hs, hblocked, dt, n, s', hdt, hrun, hempty, hback _ hopen⟩

end Pool

end ProxySplit
