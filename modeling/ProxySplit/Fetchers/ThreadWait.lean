import ProxySplit.Lib.Budget
import ProxySplit.ProxyHealth
import ProxySplit.Fetchers.Chunk

namespace ProxySplit

open Lib Prog

def FetchEffect.awaits : FetchEffect → Bool
  | .acquireRetrySlot | .acquireLimiter _ | .http _ => true
  | _ => false

def holdsThread : Fetch α → Bool
  | .pure _ => false
  | .perform e _ => ¬ e.awaits

/-- The call of `allow_request` that has the thread in `evt_to_wait.wait`. -/
structure ThreadWait (n : Nat) where
  task : Fin n
  url : Url
  event : Nat
  entered : CircuitBreaker
  since : ℚ
  deriving DecidableEq

/-- The event loop with its `fetch_chunk` coroutines, the one that has the thread, and for every wait that has
returned whether the probe's outcome was recorded by then. -/
structure EventLoop (K : Type) (jobs : List ChunkJob) where
  health : ProxyHealth K
  rest : Fin jobs.length → Fetch (Except PyExc ChunkResult)
  running : Option (Fin jobs.length)
  blocked : Option (ThreadWait jobs.length)
  waits : List Bool

namespace EventLoop

variable {K : Type} {jobs : List ChunkJob}

/-- A coroutine calls `allow_request` or does something else; the wait on the thread returns; the health
checker releases a proxy or reports a failed retest; time passes. -/
inductive Label (jobs : List ChunkJob)
  | allowRequest (i : Fin jobs.length)
  | act (i : Fin jobs.length) (ev : Event FetchEffect FetchAnswer)
  | resume
  | release (url : Url)
  | retestFailed (url : Url)
  | elapse (dt : ℚ)

def start (K : Type) (jobs : List ChunkJob) (threshold : Nat) (base max : ℚ) (clock : Clock) :
    EventLoop K jobs :=
  ⟨⟨.empty, .new threshold base max, clock⟩, fun i => fetchChunk (jobs.get i), none, none, []⟩

def Free (s : EventLoop K jobs) (i : Fin jobs.length) : Prop :=
  s.blocked = none ∧ (s.running = none ∨ s.running = some i)

instance (s : EventLoop K jobs) (i : Fin jobs.length) : Decidable (s.Free i) :=
  inferInstanceAs (Decidable (_ ∧ _))

def goOn (s : EventLoop K jobs) (i : Fin jobs.length) (p : Fetch (Except PyExc ChunkResult)) :
    EventLoop K jobs :=
  { s with
    rest := Function.update s.rest i p
    running := if holdsThread p then some i else none }

/-- What an effect does to the statistics and the breaker; `none` where the answer is not one of theirs. -/
def record (h : ProxyHealth K) : Event FetchEffect FetchAnswer → Option (ProxyHealth K)
  | ⟨.allowRequest _, _⟩ => none
  | ⟨.pickProxy .., view⟩ =>
    if view.breaker = h.breaker ∧ view.clock = h.clock then some h else none
  | ⟨.recordSuccess (some url) n lat, _⟩ => some (h.recordSuccess url n lat)
  | ⟨.recordFailure (some url), _⟩ => some (h.recordFailure url)
  | _ => some h

def step (s : EventLoop K jobs) : Label jobs → Option (EventLoop K jobs)
  | .allowRequest i =>
    if s.Free i then
      match s.rest i with
      | .perform (.allowRequest url) k =>
        let b := s.health.breaker
        let now := s.health.clock.monotonic
        match b.allowEnter now url with
        | (.answer _, b') =>
          some (goOn { s with health := { s.health with breaker := b' } } i (k ⟨b, now, b, now⟩))
        | (.wait ev, b') => some { s with
            health := { s.health with breaker := b' }
            running := some i
            blocked := some ⟨i, url, ev, b, now⟩ }
      | _ => none
    else none
  | .act i ev =>
    if s.Free i then
      (record s.health ev).bind fun h =>
        ((s.rest i).advance ev).map fun p => goOn { s with health := h } i p
    else none
  | .resume =>
    match s.blocked with
    | none => none
    | some w =>
      let recorded := s.health.breaker.events[w.event]? = some true
      if recorded ∨ w.since + 30 ≤ s.health.clock.monotonic then
        match s.rest w.task with
        | .perform (.allowRequest _) k =>
          let view : AllowView := ⟨w.entered, w.since, s.health.breaker, s.health.clock.monotonic⟩
          some (goOn { s with blocked := none, waits := s.waits ++ [decide recorded] } w.task (k view))
        | _ => none
      else none
  | .release url =>
    if s.blocked = none ∧ s.running = none then
      some { s with health := s.health.release url }
    else none
  | .retestFailed url =>
    if s.blocked = none ∧ s.running = none then
      some { s with health := s.health.retestFailed url }
    else none
  | .elapse dt =>
    if 0 ≤ dt then some { s with health := { s.health with
      clock := ⟨s.health.clock.monotonic + dt, s.health.clock.time + dt⟩ } }
    else none

def machine (K : Type) (jobs : List ChunkJob) (threshold : Nat) (base max : ℚ) (clock : Clock) :
    Machine (EventLoop K jobs) (Label jobs) := ⟨start K jobs threshold base max clock, step⟩

def asks (s : EventLoop K jobs) (i : Fin jobs.length) : Option Url :=
  match s.rest i with
  | .perform (.allowRequest url) _ => some url
  | _ => none

/-- The thread is not in a wait, and no wait came back before the probe's outcome was recorded. -/
structure Unblocked (s : EventLoop K jobs) : Prop where
  free : s.blocked = none
  waits : ∀ recorded ∈ s.waits, recorded = true

/-- Nobody asks about a proxy whose probe is outstanding. -/
def AsksSettled (s : EventLoop K jobs) : Label jobs → Prop
  | .allowRequest i => ∀ url ∈ s.asks i, s.health.breaker.stateFor url ≠ .halfOpen
  | _ => True

instance (s : EventLoop K jobs) : (l : Label jobs) → Decidable (s.AsksSettled l)
  | .allowRequest i =>
    inferInstanceAs (Decidable (∀ url ∈ s.asks i, s.health.breaker.stateFor url ≠ .halfOpen))
  | .act .. | .resume | .release _ | .retestFailed _ | .elapse _ => inferInstanceAs (Decidable True)

variable {s s' : EventLoop K jobs} {l : Label jobs}

abbrev Sound (b : CircuitBreaker) : Prop := b.ProbeInv ∧ b.Pending

/-- What a step is: the coroutines or the health checker do something, a call of `allow_request` takes the
thread into its wait, the wait returns, or time passes. -/
inductive Move (s s' : EventLoop K jobs) : Label jobs → Prop
  | works (l : Label jobs) (before : s.blocked = none) (after : s'.blocked = none)
      (waits : s'.waits = s.waits) (sound : Sound s.health.breaker → Sound s'.health.breaker)
      (settled : s.health.breaker.ProbeInv → s.AsksSettled l) : Move s s' l
  | blocks (i url w) (before : s.blocked = none) (after : s'.blocked = some w)
      (waits : s'.waits = s.waits) (breaker : s'.health.breaker = s.health.breaker)
      (asks : s.asks i = some url) (halfOpen : s.health.breaker.stateFor url = .halfOpen)
      (registered : s.health.breaker.probeEvents.get? url = some w.event) :
      Move s s' (.allowRequest i)
  | returns (w) (before : s.blocked = some w) (after : s'.blocked = none)
      (waits : s'.waits = s.waits ++ [decide (s.health.breaker.events[w.event]? = some true)])
      (breaker : s'.health.breaker = s.health.breaker) : Move s s' .resume
  | passes (dt) (blocked : s'.blocked = s.blocked) (waits : s'.waits = s.waits)
      (breaker : s'.health.breaker = s.health.breaker) : Move s s' (.elapse dt)

theorem sound_record {h h' : ProxyHealth K} {ev : Event FetchEffect FetchAnswer}
    (hrec : record h ev = some h') (hs : Sound h.breaker) : Sound h'.breaker := by
  unfold record at hrec
  split at hrec
  · cases hrec
  · split at hrec
    · cases hrec
      exact hs
    · cases hrec
  · cases hrec
    exact ⟨hs.1.recordSuccess .., hs.2.recordSuccess _⟩
  · cases hrec
    rw [ProxyHealth.recordFailure_breaker]
    exact ⟨hs.1.recordFailure .., hs.2.recordFailure ..⟩
  · cases hrec
    exact hs

theorem allowEnter_wait {b b' : CircuitBreaker} {now : ℚ} {url : Url} {ev : Nat}
    (h : b.allowEnter now url = (.wait ev, b')) :
    b' = b ∧ b.stateFor url = .halfOpen ∧ b.probeEvents.get? url = some ev := by
  unfold CircuitBreaker.allowEnter at h
  split at h
  · cases h
  · split at h <;> cases h
  · next hs =>
    split at h
    · cases h
    · next hev =>
      cases h
      exact ⟨rfl, hs, hev⟩

theorem allowEnter_answer {b b' : CircuitBreaker} {now : ℚ} {url : Url} {a : Bool} (hinv : b.ProbeInv)
    (h : b.allowEnter now url = (.answer a, b')) : b.stateFor url ≠ .halfOpen := by
  intro hs
  obtain ⟨ev, hev⟩ := Option.isSome_iff_exists.mp ((hinv.registered url).mpr hs)
  simp [CircuitBreaker.allowEnter, hs, hev] at h

theorem move_of_step (h : s.step l = some s') : Move s s' l := by
  cases l with
  | allowRequest i =>
    simp only [step] at h
    split at h
    · next hfree =>
      split at h
      · next url k hrest =>
        have hasks : s.asks i = some url := by simp [asks, hrest]
        split at h
        · next a b' henter =>
          cases h
          refine .works _ hfree.1 hfree.1 rfl (fun hs => ?_) fun hinv => ?_
          · have hb : b' = (s.health.breaker.allowEnter s.health.clock.monotonic url).2 := by rw [henter]
            change Sound b'
            rw [hb]
            exact ⟨hs.1.allowEnter .., hs.2.allowEnter hs.1 _⟩
          · simpa [AsksSettled, hasks] using allowEnter_answer hinv henter
        · next ev b' henter =>
          obtain ⟨rfl, hhalf, hev⟩ := allowEnter_wait henter
          cases h
          exact .blocks i url _ hfree.1 rfl rfl rfl hasks hhalf hev
      · cases h
    · cases h
  | act i ev =>
    simp only [step] at h
    split at h
    · next hfree =>
      obtain ⟨h', hrec, h⟩ := Option.bind_eq_some_iff.mp h
      obtain ⟨p, -, rfl⟩ := Option.map_eq_some_iff.mp h
      exact .works _ hfree.1 hfree.1 rfl (sound_record hrec) fun _ => trivial
    · cases h
  | resume =>
    simp only [step] at h
    split at h
    · cases h
    · next w hw =>
      split at h
      · split at h
        · cases h
          exact .returns w hw rfl rfl rfl
        · cases h
      · cases h
  | release url =>
    simp only [step] at h
    split at h
    · next hfree =>
      cases h
      refine .works _ hfree.1 hfree.1 rfl (fun hs => ?_) fun _ => trivial
      exact ⟨hs.1.release s.health.stats url, hs.2.release s.health.stats⟩
    · cases h
  | retestFailed url =>
    simp only [step] at h
    split at h
    · next hfree =>
      cases h
      refine .works _ hfree.1 hfree.1 rfl (fun hs => ?_) fun _ => trivial
      exact ⟨hs.1.recordFailure .., hs.2.recordFailure ..⟩
    · cases h
  | elapse dt =>
    simp only [step] at h
    split at h
    · cases h
      exact .passes dt rfl rfl rfl
    · cases h

structure Inv (s : EventLoop K jobs) : Prop where
  sound : Sound s.health.breaker
  unset : ∀ w ∈ s.blocked, s.health.breaker.events[w.event]? = some false
  waits : ∀ recorded ∈ s.waits, recorded = false

theorem Inv.move (h : Inv s) (hm : Move s s' l) : Inv s' := by
  cases hm with
  | works l before after waits sound =>
    refine ⟨sound h.sound, fun w hw => ?_, waits ▸ h.waits⟩
    rw [after] at hw
    cases hw
  | blocks i url w before after waits breaker asks halfOpen registered =>
    refine ⟨breaker ▸ h.sound, fun w' hw' => ?_, waits ▸ h.waits⟩
    rw [after] at hw'
    cases hw'
    rw [breaker]
    exact h.sound.2.unset url w.event registered
  | returns w before after waits breaker =>
    refine ⟨breaker ▸ h.sound, fun w' hw' => ?_, fun recorded hrec => ?_⟩
    · rw [after] at hw'
      cases hw'
    · rw [waits] at hrec
      rcases List.mem_append.mp hrec with hold | hnew
      · exact h.waits recorded hold
      · rw [List.mem_singleton.mp hnew, h.unset w before]
        rfl
  | passes dt blocked waits breaker =>
    exact ⟨breaker ▸ h.sound, fun w hw => breaker ▸ h.unset w (blocked ▸ hw), waits ▸ h.waits⟩

variable {threshold : Nat} {base max : ℚ} {clock : Clock}

theorem inv_of_reachable (hs : (machine K jobs threshold base max clock).Reachable s) : Inv s := by
  refine hs.invariant (I := Inv) ⟨⟨.new .., .new ..⟩, ?_, ?_⟩ fun _ _ _ hI _ hstep =>
    hI.move (move_of_step hstep)
  · intro w hw
    cases hw
  · intro recorded hrec
    cases hrec

theorem Unblocked.move_iff (hI : Inv s) (h : Unblocked s) (hm : Move s s' l) :
    Unblocked s' ↔ s.AsksSettled l := by
  cases hm with
  | works l before after waits sound settled =>
    exact iff_of_true ⟨after, waits ▸ h.waits⟩ (settled hI.sound.1)
  | blocks i url w before after waits breaker asks halfOpen registered =>
    refine iff_of_false (fun hfree => ?_) fun hsettled => hsettled url asks halfOpen
    have hnone := hfree.free
    rw [after] at hnone
    cases hnone
  | returns w before =>
    have hnone := h.free
    rw [before] at hnone
    cases hnone
  | passes dt blocked waits breaker =>
    exact iff_of_true ⟨blocked.trans h.free, waits ▸ h.waits⟩ trivial

theorem unblocked_of_reach (hs : (machine K jobs threshold base max clock).Reach AsksSettled s) :
    Unblocked s := by
  have hboth : Inv s ∧ Unblocked s := by
    refine hs.invariant (I := fun s => Inv s ∧ Unblocked s) ⟨inv_of_reachable .init, rfl, ?_⟩ ?_
    · intro recorded hrec
      cases hrec
    · intro s l s' hI hok hstep
      have hm := move_of_step hstep
      exact ⟨hI.1.move hm, (hI.2.move_iff hI.1 hm).mpr hok⟩
  exact hboth.2

/-- No wait for a probe ever comes back with its outcome recorded: while it lasts the event is not set and
nothing happens but that time passes.  The thread is never in such a wait as long as no coroutine asks about a
proxy whose probe is outstanding, and no longer. -/
theorem unblocked_iff (K : Type) (jobs : List ChunkJob) (threshold : Nat) (base max : ℚ)
    (clock : Clock) (s : EventLoop K jobs) :
    ((machine K jobs threshold base max clock).Reachable s →
      (∀ recorded ∈ s.waits, recorded = false) ∧
      ∀ w ∈ s.blocked, s.health.breaker.events[w.event]? = some false ∧
        ∀ l s', s.step l = some s' → l = .resume ∨ ∃ dt, l = .elapse dt) ∧
    ((machine K jobs threshold base max clock).Reach AsksSettled s → Unblocked s ∧
      ∀ l s', s.step l = some s' → (Unblocked s' ↔ s.AsksSettled l)) := by
  constructor
  · intro hs
    have hI := inv_of_reachable hs
    refine ⟨hI.waits, fun w hw => ⟨hI.unset w hw, fun l s' hstep => ?_⟩⟩
    have hbusy : s.blocked ≠ none := by
      rw [hw]
      exact nofun
    cases move_of_step hstep with
    | works l before => exact absurd before hbusy
    | blocks i url w before => exact absurd before hbusy
    | returns => exact .inl rfl
    | passes dt => exact .inr ⟨dt, rfl⟩
  · intro hs
    have hfree := unblocked_of_reach hs
    exact ⟨hfree, fun l s' hstep =>
      hfree.move_iff (inv_of_reachable hs.reachable) (move_of_step hstep)⟩

def tenBytes (index : Nat) : ChunkJob where
  url := "http://origin.example/file"
  start := 10 * index
  stop := 10 * index + 9
  index := index
  proxyUrl := "http://10.0.0.1:8080"
  chunkRetries := 1
  chunkProxy := true
  pool := none
  weighted := true
  retryBudget := true
  requestId := "r"

def threeChunks : List ChunkJob := [tenBytes 0, tenBytes 1, tenBytes 2]

def chunk (i : Fin 3) : Fin threeChunks.length := i

def untilProbe : List (Label threeChunks) :=
  [.allowRequest (chunk 2), .act (chunk 2) ⟨.acquireLimiter "http://10.0.0.1:8080", .ok ()⟩,
    .act (chunk 2) ⟨.http ((tenBytes 2).request "http://10.0.0.1:8080"), .error .timeout⟩,
    .act (chunk 2) ⟨.recordFailure (some "http://10.0.0.1:8080"), ()⟩, .elapse 60, .allowRequest (chunk 0),
    .act (chunk 0) ⟨.acquireLimiter "http://10.0.0.1:8080", .ok ()⟩]

theorem unblocked_after_probe : ∃ s : EventLoop Unit threeChunks, Unblocked s ∧ s.running = none ∧
    s.health.breaker.events = [true] := by
  have hrun : ∃ s, (machine Unit threeChunks 1 60 3600 ⟨0, 0⟩).Reach AsksSettled s ∧
      s.running = none ∧ s.health.breaker.events = [true] :=
    Machine.exists_reach_if (untilProbe ++
      [.act (chunk 0) ⟨.http ((tenBytes 0).request "http://10.0.0.1:8080"),
          .ok ⟨206, [], List.replicate 10 0, 12⟩⟩,
        .act (chunk 0) ⟨.recordSuccess (some "http://10.0.0.1:8080") 10 12, ()⟩,
        .act (chunk 0) ⟨.recordChunk 12, ()⟩, .allowRequest (chunk 1)]) (by decide +kernel)
  obtain ⟨s, hs, hstate⟩ := hrun
  exact ⟨s, ((unblocked_iff Unit threeChunks 1 60 3600 ⟨0, 0⟩ s).2 hs).1, hstate⟩

/-- Chunk 1 asks about the proxy while the probe waits for its response, and takes the thread with it. -/
theorem thread_blocked : ¬ ∀ (jobs : List ChunkJob) (threshold : Nat) (base max : ℚ) (clock : Clock)
    (s : EventLoop Unit jobs), (machine Unit jobs threshold base max clock).Reachable s →
      Unblocked s := by
  intro h
  obtain ⟨s, hs, hblocked⟩ := Machine.exists_reachable
    (M := machine Unit threeChunks 1 60 3600 ⟨0, 0⟩) (P := fun s => s.blocked ≠ none)
    (untilProbe ++ [.allowRequest (chunk 1)]) (by decide +kernel)
  exact hblocked (h threeChunks 1 60 3600 ⟨0, 0⟩ s hs).free

end EventLoop

end ProxySplit
