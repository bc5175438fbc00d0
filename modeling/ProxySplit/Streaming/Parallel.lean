import ProxySplit.Streaming.Cursor

namespace ProxySplit

open Lib

/-- The candidates whose `fetch_chunk` has not ended. -/
def Race.running (r : Race) : Nat :=
  match r.pc with
  | .waiting | .reaping _ | .aborted => (r.rest .a).toNat + (r.rest .b).toNat
  | .stored _ | .raised => 0

theorem Race.running_le (r : Race) : r.running ≤ 2 := by
  have hone : ∀ b : Bool, b.toNat ≤ 1 := Bool.toNat_le
  have ha := hone (r.rest .a)
  have hb := hone (r.rest .b)
  unfold running
  split <;> omega

namespace Stream

variable {cfg : StreamConfig} {s s' : Stream cfg} {l : Label}

/-- The calls of `fetch_chunk` in progress: the race of chunk 0, and the tasks that have the semaphore and
wait for their fetch. -/
def inProgress (s : Stream cfg) : Nat :=
  (if 0 < cfg.numChunks ∧ s.tasks 0 = .racing then s.race.running else 0) +
    (s.fetchSem.holders.filter fun i => s.tasks i = .sem).length

def reach (cfg : StreamConfig) : Nat := max 1 (min cfg.numChunks (2 * cfg.prefetchAhead))

structure Racing (s : Stream cfg) : Prop where
  ready : s.ready 0 = false
  writer : s.Active → s.writer = .waitReady 0
  gates : s.gates = (init cfg).gates
  entered_pos : 0 < s.entered
  entered_le : s.entered ≤ reach cfg
  asked : s.fetchSem.holders.length + s.fetchSem.waiters.length < s.entered

theorem racing_init (h : (init cfg).tasks 0 = .racing) : Racing (init cfg) := by
  have hrace : cfg.race = true := by
    by_contra hno
    simp [init, hno] at h
  constructor
  case ready => rfl
  case writer =>
    intro ha
    exact (active_loopHead (s := init cfg) (i := 0) rfl ha).2
  case gates => rfl
  case entered_pos => simp [init, hrace]
  case entered_le =>
    simp only [init, hrace, if_true]
    exact le_max_left ..
  case asked => simp [init, hrace, Semaphore.idle]

theorem length_acquire (sem : Semaphore Nat cfg.maxWorkers) (i : Nat) :
    (sem.acquire i).holders.length + (sem.acquire i).waiters.length =
      sem.holders.length + sem.waiters.length + 1 := by
  rcases sem.acquire_cases i with ⟨hn, hh, hw⟩ | ⟨-, hh, hw⟩
  · simp [hn, hh, hw]
  · simp [hh, hw]
    omega

theorem length_release_le (sem : Semaphore Nat cfg.maxWorkers) (i : Nat) :
    (sem.release i).holders.length + (sem.release i).waiters.length ≤
      sem.holders.length + sem.waiters.length := by
  by_cases hi : i ∈ sem.holders
  · have herase := List.length_erase_of_mem hi
    have hpos := List.length_pos_of_mem hi
    rcases Semaphore.release_cases hi with ⟨hn, hh, hw⟩ | ⟨j, rest, hj, hh, hw⟩
    · simp [hn, hh, hw, herase]
    · simp only [hj, hh, hw, List.length_append, List.length_cons, List.length_nil]
      omega
  · simp [Semaphore.release, hi]

namespace Racing

theorem congr (h : s.Racing) (hready : s'.ready 0 = s.ready 0)
    (hwriter : s'.Active → s'.writer = s.writer) (hactive : s'.Active → s.Active)
    (hgates : s'.gates = s.gates) (hentered : s'.entered = s.entered)
    (hasked : s'.fetchSem.holders.length + s'.fetchSem.waiters.length ≤
      s.fetchSem.holders.length + s.fetchSem.waiters.length) : s'.Racing where
  ready := hready.trans h.ready
  writer ha := (hwriter ha).trans (h.writer (hactive ha))
  gates := hgates.trans h.gates
  entered_pos := hentered ▸ h.entered_pos
  entered_le := hentered ▸ h.entered_le
  asked := hentered ▸ hasked.trans_lt h.asked

theorem enterTask (h : s.Racing) (hlt : s.entered < cfg.numChunks)
    (hgate : s.gates (s.entered - cfg.prefetchAhead) = true) : s.enterTask.Racing where
  ready := h.ready
  writer := h.writer
  gates := h.gates
  entered_pos := Nat.succ_pos _
  entered_le := by
    rw [h.gates] at hgate
    simp only [init, decide_eq_true_eq] at hgate
    have hpos := h.entered_pos
    change s.entered + 1 ≤ reach cfg
    unfold reach
    omega
  asked := by
    have hlen := length_acquire s.fetchSem s.entered
    have hasked := h.asked
    simp only [Stream.enterTask]
    omega

theorem finishTask (h : s.Racing) {i : Nat} (hi : i ≠ 0) (out : Fetched) :
    (s.finishTask i out).Racing :=
  h.congr (Function.update_of_ne hi.symm ..) (fun _ => rfl) id rfl rfl (length_release_le ..)

theorem offer (h : s.Racing) {i : Nat} (hi : i ≠ 0) (res : ChunkResult) : (s.offer i res).Racing := by
  unfold Stream.offer
  split
  · exact h.congr (Function.update_of_ne hi.symm ..) (fun _ => rfl) id rfl rfl (length_release_le ..)
  · exact h.congr rfl (fun _ => rfl) id rfl rfl le_rfl

theorem move (h : s.Racing) (hracing : s.tasks 0 = .racing) (hm : Move s l s') : s'.Racing := by
  have hother : ∀ {i : Nat}, s.tasks i ≠ .racing → i ≠ 0 := by
    rintro i hi rfl
    exact hi hracing
  cases hm with
  | enter active lt gate => exact h.enterTask lt gate
  | fetched i res active pc held => exact h.offer (hother (by simp [pc])) res
  | failed i exc active pc held => exact h.finishTask (hother (by simp [pc])) _
  | rechecked i res active pc => exact h.offer (hother (by simp [pc])) res
  | read i writer ready =>
    have hw := h.writer (by simp [Active, writer])
    rw [writer] at hw
    cases hw
    rw [h.ready] at ready
    cases ready
  | wrote i res writer =>
    have hw := h.writer (by simp [Active, writer])
    rw [writer] at hw
    cases hw
  | writeFailed i res writer =>
    exact h.congr rfl (fun ha => absurd ha id) (fun ha => absurd ha id) rfl rfl le_rfl
  | cancelled active =>
    exact h.congr rfl (fun ha => absurd ha id) (fun ha => absurd ha id) rfl rfl le_rfl

theorem storeRace (h : s.Racing) {race : Race} (hracing : (s.storeRace race).tasks 0 = .racing) :
    (s.storeRace race).Racing := by
  unfold Stream.storeRace at hracing ⊢
  split at hracing
  · simp at hracing
  · exact h.congr rfl (fun _ => rfl) id rfl rfl le_rfl

end Racing

theorem tasks_offer_of_ne {i j : Nat} (hj : j ≠ i) (res : ChunkResult) :
    (s.offer i res).tasks j = s.tasks j := by
  unfold offer
  split
  · exact Function.update_of_ne hj ..
  · exact Function.update_of_ne hj ..

theorem tasks_offer_self (s : Stream cfg) (i : Nat) (res : ChunkResult) :
    (s.offer i res).tasks i = .done ∨ (s.offer i res).tasks i = .waitSpace res := by
  unfold offer
  split
  · exact .inl (Function.update_self ..)
  · exact .inr (Function.update_self ..)

theorem racing_of_move (hm : Move s l s') (h : s'.tasks 0 = .racing) : s.tasks 0 = .racing := by
  have hoffer : ∀ {i : Nat} {res : ChunkResult}, (s.offer i res).tasks 0 = .racing →
      s.tasks 0 = .racing := by
    intro i res h
    by_cases hi : 0 = i
    · subst hi
      rcases tasks_offer_self s 0 res with h' | h' <;> simp [h'] at h
    · rwa [tasks_offer_of_ne hi] at h
  cases hm with
  | enter active lt gate =>
    by_cases hi : 0 = s.entered
    · simp [enterTask, ← hi] at h
    · simpa only [enterTask, Function.update_of_ne hi] using h
  | fetched i res active pc held => exact hoffer h
  | failed i exc active pc held =>
    by_cases hi : 0 = i
    · simp [finishTask, ← hi] at h
    · simpa only [finishTask, Function.update_of_ne hi] using h
  | rechecked i res active pc => exact hoffer h
  | read i writer ready =>
    unfold afterReady at h
    split at h <;> exact h
  | wrote i res writer => exact wake_eq_racing.mp h
  | writeFailed i res writer => exact h
  | cancelled active => exact h

theorem racing_of_reachable (h : (machine cfg).Reachable s) : s.tasks 0 = .racing → s.Racing := by
  refine h.invariant (I := fun s => s.tasks 0 = .racing → s.Racing) racing_init ?_
  intro s l s' hI _ hstep hracing
  rcases move_or_race hstep with hm | ⟨r, race, rfl, -, hbefore, -, rfl⟩
  · have hbefore := racing_of_move hm hracing
    exact (hI hbefore).move hbefore hm
  · exact (hI hbefore).storeRace hracing

theorem inProgress_le (h : (machine cfg).Reachable s)
    (hfits : cfg.race = false ∨ cfg.numChunks = 0 ∨ reach cfg < cfg.maxWorkers) :
    s.inProgress ≤ cfg.maxWorkers := by
  have hfetching := List.length_filter_le (fun i => decide (s.tasks i = .sem)) s.fetchSem.holders
  have hbound := s.fetchSem.bounded
  unfold inProgress
  split
  · next hraced =>
    have hR := racing_of_reachable h hraced.2
    have hrunning := s.race.running_le
    have hasked := hR.asked
    have hentered := hR.entered_le
    rcases hfits with hrace | hnone | hreach
    · exact absurd hraced.2 (not_racing hrace h)
    · omega
    · omega
  · omega

structure Entered (s : Stream cfg) (k : Nat) : Prop where
  active : s.Active
  gates : s.gates = (init cfg).gates
  racing : s.tasks 0 = .racing
  race : s.race = .init
  entered_eq : s.entered = k + 1
  holders_length : s.fetchSem.holders.length = k
  fetching : ∀ i ∈ s.fetchSem.holders, i < s.entered ∧ s.tasks i = .sem

theorem Entered.inProgress_eq {k : Nat} (h : s.Entered k) (hn : 0 < cfg.numChunks) :
    s.inProgress = 2 + k := by
  have hall : (s.fetchSem.holders.filter fun i => s.tasks i = .sem) = s.fetchSem.holders :=
    List.filter_eq_self.mpr fun i hi => decide_eq_true (h.fetching i hi).2
  have hrunning : s.race.running = 2 := by rw [h.race]; rfl
  rw [inProgress, if_pos ⟨hn, h.racing⟩, hall, h.holders_length, hrunning]

theorem exists_entered (hrace : cfg.race = true) (hn : 0 < cfg.numChunks) {k : Nat}
    (hk : k ≤ cfg.maxWorkers) (hreach : k < reach cfg) :
    ∃ s, (machine cfg).Reachable s ∧ s.Entered k := by
  induction k with
  | zero =>
    refine ⟨_, .init, ?_⟩
    constructor
    case active => simp [machine, init, Active, loopHead, hn]
    case gates => rfl
    case racing => simp [machine, init, hrace]
    case race => rfl
    case entered_eq => simp [machine, init, hrace]
    case holders_length => rfl
    case fetching => simp [machine, init, Semaphore.idle]
  | succ k ih =>
    obtain ⟨s, hs, h⟩ := ih (Nat.le_of_succ_le hk) (Nat.lt_of_succ_lt hreach)
    have hentered := h.entered_eq
    unfold reach at hreach
    have hlt : s.entered < cfg.numChunks := by omega
    have hgate : s.gates (s.entered - cfg.prefetchAhead) = true := by
      rw [h.gates]
      simp only [init, decide_eq_true_eq]
      omega
    have hstep : (machine cfg).step s .enter = some s.enterTask := if_pos ⟨h.active, hlt, hgate⟩
    obtain ⟨hholders, -⟩ := Semaphore.acquire_of_lt (s := s.fetchSem) (i := s.entered)
      (by rw [h.holders_length]; exact hk)
    refine ⟨_, .step hs trivial hstep, ?_⟩
    constructor
    case active => exact h.active
    case gates => exact h.gates
    case racing => exact (Function.update_of_ne (by omega) ..).trans h.racing
    case race => exact h.race
    case entered_eq => exact congrArg Nat.succ hentered
    case holders_length => simp [enterTask, hholders, h.holders_length]
    case fetching =>
      intro i hi
      simp only [enterTask, hholders, List.mem_append, List.mem_singleton] at hi ⊢
      rcases hi with hi | rfl
      · obtain ⟨hi', hpc⟩ := h.fetching i hi
        exact ⟨Nat.lt_succ_of_lt hi', by rwa [Function.update_of_ne hi'.ne]⟩
      · exact ⟨Nat.lt_succ_self _, Function.update_self ..⟩

/-- No more chunks are fetched at a time than there are workers exactly if the race is off or the workers are
more than the tasks that can get past their gates while the race goes on. -/
theorem parallel_iff (cfg : StreamConfig) :
    (∀ s, (machine cfg).Reachable s → s.inProgress ≤ cfg.maxWorkers) ↔
      cfg.race = false ∨ cfg.numChunks = 0 ∨
        max 1 (min cfg.numChunks (2 * cfg.prefetchAhead)) < cfg.maxWorkers := by
  constructor
  · intro h
    by_contra hnot
    simp only [not_or, Bool.not_eq_false] at hnot
    obtain ⟨hrace, hn, hfew⟩ := hnot
    have hpos : 0 < cfg.numChunks := Nat.pos_of_ne_zero hn
    obtain ⟨s, hs, hentered⟩ := exists_entered (k := min cfg.maxWorkers (reach cfg - 1)) hrace hpos
      (Nat.min_le_left ..) (by unfold reach; omega)
    have hle := h s hs
    rw [hentered.inProgress_eq hpos] at hle
    unfold reach at hle
    omega
  · exact fun hfits s hs => inProgress_le hs hfits

/-- Both candidates of the race run beside the single worker. -/
theorem race_beside_worker : ¬ ∀ cfg : StreamConfig, 0 < cfg.maxWorkers →
    ∀ s, (machine cfg).Reachable s → s.inProgress ≤ cfg.maxWorkers := by
  intro h
  have hrun : ∃ s, (machine ⟨2, 1, 1, 67108864, true⟩).Reachable s ∧ s.inProgress = 3 :=
    Machine.exists_reachable [.enter] (by decide +kernel)
  obtain ⟨s, hs, hthree⟩ := hrun
  have hle := h _ (by decide) s hs
  rw [hthree] at hle
  exact absurd hle (by decide)

end Stream

end ProxySplit
