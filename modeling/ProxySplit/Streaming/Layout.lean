import ProxySplit.Streaming.Progressive

namespace ProxySplit.Stream

open Lib

variable {cfg : StreamConfig} {s : Stream cfg}

/-- Who is where: tasks enter, and get the semaphore, in the order of their index. -/
structure Layout (s : Stream cfg) : Prop where
  inOrder : s.fetchSem.InOrder s.entered
  inside : ∀ i, i ∈ s.fetchSem.holders ∨ i ∈ s.fetchSem.waiters ↔
    i < s.entered ∧ s.tasks i ≠ .done
  queued : ∀ i, i ∈ s.fetchSem.waiters → s.tasks i = .sem
  gate_iff : ∀ i, s.tasks i = .gate ↔ s.entered ≤ i
  no_racing : ∀ i, s.tasks i ≠ .racing
  ready_iff : ∀ i, s.ready i = true ↔ s.tasks i = .done
  results_iff : ∀ i, (s.results i).isSome ↔ s.tasks i = .done
  entered_le : s.entered ≤ cfg.numChunks

theorem layout_init (hrace : cfg.race = false) : Layout (init cfg) where
  inOrder := .idle _
  inside _ := by simp [init, hrace, Semaphore.idle]
  queued _ h := nomatch h
  gate_iff _ := by simp [init, hrace]
  no_racing _ := by simp [init, hrace]
  ready_iff _ := by simp [init, hrace]
  results_iff _ := by simp [init, hrace]
  entered_le := by simp [init, hrace]

namespace Layout

theorem of_holder (h : s.Layout) {i : Nat} (hi : i ∈ s.fetchSem.holders) :
    i < s.entered ∧ s.tasks i ≠ .done := (h.inside i).mp (.inl hi)

theorem lt_of_done (h : s.Layout) {i : Nat} (hi : s.tasks i = .done) : i < s.entered := by
  by_contra hle
  have := (h.gate_iff i).mpr (not_lt.mp hle)
  rw [hi] at this
  cases this

theorem enterTask (h : s.Layout) (hlt : s.entered < cfg.numChunks) : s.enterTask.Layout := by
  have hgate : s.tasks s.entered = .gate := (h.gate_iff _).mpr le_rfl
  have hdone : ∀ i, s.enterTask.tasks i = .done ↔ s.tasks i = .done := by
    intro i
    by_cases hi : i = s.entered
    · simp [Stream.enterTask, hi, hgate]
    · simp [Stream.enterTask, hi]
  constructor
  case inOrder => exact h.inOrder.acquire
  case inside =>
    intro i
    refine Semaphore.mem_acquire.trans ?_
    rw [h.inside, Ne, Ne, hdone]
    by_cases hi : i = s.entered
    · simp [hi, hgate, Stream.enterTask]
    · simp only [hi, or_false, Stream.enterTask]
      exact and_congr_left fun _ => by omega
  case queued =>
    intro i hi
    by_cases hie : i = s.entered
    · simp [Stream.enterTask, hie]
    · refine (Function.update_of_ne hie ..).trans (h.queued i ?_)
      rcases s.fetchSem.acquire_cases s.entered with ⟨-, -, hw⟩ | ⟨-, -, hw⟩
      · simp [Stream.enterTask, hw] at hi
      · simpa [Stream.enterTask, hw, hie] using hi
  case gate_iff =>
    intro i
    by_cases hie : i = s.entered
    · simp [Stream.enterTask, hie]
    · simp only [Stream.enterTask, Function.update_of_ne hie, h.gate_iff]; omega
  case no_racing =>
    intro i
    by_cases hie : i = s.entered
    · simp [Stream.enterTask, hie]
    · simp only [Stream.enterTask, Function.update_of_ne hie]; exact h.no_racing i
  case ready_iff => exact fun i => (h.ready_iff i).trans (hdone i).symm
  case results_iff => exact fun i => (h.results_iff i).trans (hdone i).symm
  case entered_le => exact hlt

theorem finishTask (h : s.Layout) {i : Nat} (hi : i ∈ s.fetchSem.holders) (out : Fetched) :
    (s.finishTask i out).Layout := by
  have hlt := (h.of_holder hi).1
  constructor
  case inOrder => exact h.inOrder.release hi
  case inside =>
    intro j
    refine (h.inOrder.mem_release hi).trans ?_
    rw [h.inside]
    by_cases hj : j = i
    · simp [hj, Stream.finishTask]
    · simp [hj, Stream.finishTask]
  case queued =>
    intro j hj
    have hmem := (h.inOrder.mem_release hi).mp (.inr hj)
    refine (Function.update_of_ne hmem.2 ..).trans (h.queued j ?_)
    rcases Semaphore.release_cases hi with ⟨-, -, hw⟩ | ⟨k, rest, hk, -, hw⟩
    · simp [Stream.finishTask, hw] at hj
    · rw [hk]; exact List.mem_cons_of_mem _ (by simpa [Stream.finishTask, hw] using hj)
  case gate_iff =>
    intro j
    by_cases hj : j = i
    · simp [hj, Stream.finishTask, hlt]
    · simp only [Stream.finishTask, Function.update_of_ne hj]; exact h.gate_iff j
  case no_racing =>
    intro j
    by_cases hj : j = i
    · simp [hj, Stream.finishTask]
    · simp only [Stream.finishTask, Function.update_of_ne hj]; exact h.no_racing j
  case ready_iff =>
    intro j
    by_cases hj : j = i
    · simp [hj, Stream.finishTask]
    · simp only [Stream.finishTask, Function.update_of_ne hj]; exact h.ready_iff j
  case results_iff =>
    intro j
    by_cases hj : j = i
    · simp [hj, Stream.finishTask]
    · simp only [Stream.finishTask, Function.update_of_ne hj]; exact h.results_iff j
  case entered_le => exact h.entered_le

theorem congr {s' : Stream cfg} (h : s.Layout) (hsem : s'.fetchSem = s.fetchSem)
    (hentered : s'.entered = s.entered) (hready : s'.ready = s.ready)
    (hresults : s'.results = s.results)
    (hdone : ∀ i, s'.tasks i = .done ↔ s.tasks i = .done)
    (hgate : ∀ i, s'.tasks i = .gate ↔ s.tasks i = .gate)
    (hracing : ∀ i, s'.tasks i = .racing ↔ s.tasks i = .racing)
    (hsemPc : ∀ i ∈ s.fetchSem.waiters, s'.tasks i = s.tasks i) : s'.Layout where
  inOrder := by rw [hsem, hentered]; exact h.inOrder
  inside i := by rw [hsem, hentered, Ne, hdone]; exact h.inside i
  queued i hi := by
    rw [hsem] at hi
    rw [hsemPc i hi]
    exact h.queued i hi
  gate_iff i := by rw [hgate, hentered]; exact h.gate_iff i
  no_racing i := by rw [Ne, hracing]; exact h.no_racing i
  ready_iff i := by rw [hready, hdone]; exact h.ready_iff i
  results_iff i := by rw [hresults, hdone]; exact h.results_iff i
  entered_le := by rw [hentered]; exact h.entered_le

theorem offer (h : s.Layout) {i : Nat} (hi : i ∈ s.fetchSem.holders) (res : ChunkResult) :
    (s.offer i res).Layout := by
  unfold Stream.offer
  split
  · have hbuf : Layout { s with bufBytes := s.bufBytes + res.data.length } :=
      h.congr rfl rfl rfl rfl (fun _ => .rfl) (fun _ => .rfl) (fun _ => .rfl) fun _ _ => rfl
    exact hbuf.finishTask hi _
  · have hpast := h.of_holder hi
    have hgate : s.tasks i ≠ .gate := fun hg => absurd ((h.gate_iff i).mp hg) (not_le.mpr hpast.1)
    have hracing := h.no_racing i
    refine h.congr rfl rfl rfl rfl ?_ ?_ ?_ ?_
    · intro j
      by_cases hj : j = i
      · subst hj; simp [hpast.2]
      · simp [hj]
    · intro j
      by_cases hj : j = i
      · subst hj; simp [hgate]
      · simp [hj]
    · intro j
      by_cases hj : j = i
      · subst hj; simp [hracing]
      · simp [hj]
    · intro j hj
      have hne : j ≠ i := fun he => h.inOrder.disjoint i hi (he ▸ hj)
      simp [hne]

theorem afterWrite (h : s.Layout) (i : Nat) (res : ChunkResult) :
    (s.afterWrite i res).Layout := by
  refine h.congr rfl rfl rfl rfl ?_ ?_ ?_ ?_
  · intro j
    simp only [Stream.afterWrite]
    cases s.tasks j <;> simp [wake]
  · intro j
    simp only [Stream.afterWrite]
    cases s.tasks j <;> simp [wake]
  · intro j
    simp only [Stream.afterWrite]
    cases s.tasks j <;> simp [wake]
  · intro j hj
    simp [Stream.afterWrite, h.queued j hj, wake]

theorem afterReady (h : s.Layout) (i : Nat) : (s.afterReady i).Layout := by
  unfold Stream.afterReady
  split <;>
    exact h.congr rfl rfl rfl rfl (fun _ => .rfl) (fun _ => .rfl) (fun _ => .rfl) fun _ _ => rfl

end Layout

end ProxySplit.Stream
