import ProxySplit.Streaming.Flow
import Mathlib.Order.Interval.Finset.Nat
import Mathlib.Algebra.Order.BigOperators.Group.Finset

namespace ProxySplit.Stream

open Lib Finset

variable {cfg : StreamConfig} {s : Stream cfg} {len : Nat → Nat}

/-- The steps the stream takes itself: a fetch or a write comes back, a task or the write loop
runs.  The client leaving is not one of them. -/
def Label.Internal : Label → Prop
  | .writeFail | .cancel => False
  | _ => True

def Moves (s : Stream cfg) : Prop := ∃ l : Label, l.Internal ∧ (s.step l).isSome

/-- The result that a fetch of a chunk of `len i` bytes returns has that many. -/
def Sized (len : Nat → Nat) (i : Nat) (res : ChunkResult) : Prop := res.data.length = len i

/-- Every state that a run reaches before the write loop is left has a next step. -/
def DeadlockFree (cfg : StreamConfig) (len : Nat → Nat) : Prop :=
  ∀ s, (machine cfg).Reach (Returns (Sized len)) s → s.Active → s.Moves

/-- The last chunk whose fetch can be done while chunk `w` is not written. -/
def lastAhead (cfg : StreamConfig) (w : Nat) : Nat :=
  min (cfg.numChunks - 1) (max (2 * cfg.prefetchAhead - 1) (w + cfg.prefetchAhead))

/-- Only one chunk is fetched at a time, or no chunk is ever crowded out by chunks after it:
whichever of those in prefetch reach fit into the buffer together, it fits in next to them. -/
def Roomy (cfg : StreamConfig) (len : Nat → Nat) : Prop :=
  cfg.maxWorkers = 1 ∨ ∀ w < cfg.numChunks, ∀ S ⊆ Ioc w (lastAhead cfg w),
    ∑ i ∈ S, len i ≤ cfg.maxBufferBytes → len w + ∑ i ∈ S, len i ≤ cfg.maxBufferBytes

section Progress

variable {i w : Nat} {res : ChunkResult}

theorem moves_of_writing (h : s.writer = .writing i res) : s.Moves :=
  ⟨.writeDone, trivial, by simp [step, h]⟩

theorem moves_of_ready (h : s.writer = .waitReady i) (hr : s.ready i = true) : s.Moves :=
  ⟨.writerWake, trivial, by simp [step, h, hr]⟩

theorem moves_of_fetching (ha : s.Active) (h : s.tasks i = .sem)
    (hi : i ∈ s.fetchSem.holders) : s.Moves :=
  ⟨.fetchReturn i (.error .timeout), trivial, by simp [step, h, hi, ha]⟩

theorem moves_of_recheck (ha : s.Active) (h : s.tasks i = .recheck res) : s.Moves :=
  ⟨.recheck i, trivial, by simp [step, h, ha]⟩

theorem moves_of_gate (ha : s.Active) (hlt : s.entered < cfg.numChunks)
    (hg : s.gates (s.entered - cfg.prefetchAhead) = true) : s.Moves :=
  ⟨.enter, trivial, by simp [step, ha, hlt, hg]⟩

/-- In a stuck stream the chunk the write loop waits for has been fetched and does not fit. -/
theorem waitSpace_of_stuck (hP : 0 < cfg.prefetchAhead) (hW : 0 < cfg.maxWorkers)
    (hL : s.Layout) (hF : s.Flow) (hw : s.writer = .waitReady w) (hstuck : ¬ s.Moves) :
    w ∈ s.fetchSem.holders ∧ ∃ res, s.tasks w = .waitSpace res := by
  have ha : s.Active := by simp [Active, hw]
  have hpos : s.pos = w := by simp [pos, hw]
  have hready : s.tasks w ≠ .done := fun hd =>
    hstuck (moves_of_ready hw ((hL.ready_iff w).mpr hd))
  have hentered : w < s.entered := by
    by_contra hle
    have hlt := hpos ▸ hF.pos_lt
    apply hstuck
    refine moves_of_gate ha (by omega) ?_
    rw [hF.gates_iff, hpos]
    omega
  have hheld : w ∈ s.fetchSem.holders := by
    rcases (hL.inside w).mpr ⟨hentered, hready⟩ with hheld | hwait
    · exact hheld
    · obtain ⟨i, hi⟩ := Semaphore.exists_holder hW hwait
      have hpast := hL.of_holder hi
      have hlt := hL.inOrder.before i w hpast.1 (hL.inOrder.disjoint i hi) hwait
      obtain ⟨res, hres⟩ := hF.released i (hpos ▸ hlt)
      exact absurd ((hL.results_iff i).mp (by simp [hres])) hpast.2
  refine ⟨hheld, ?_⟩
  cases hpc : s.tasks w with
  | gate => exact absurd ((hL.gate_iff w).mp hpc) (by omega)
  | sem => exact absurd (moves_of_fetching ha hpc hheld) hstuck
  | waitSpace res => exact ⟨res, rfl⟩
  | recheck res => exact absurd (moves_of_recheck ha hpc) hstuck
  | done => exact absurd hpc hready
  | racing => exact absurd hpc (hL.no_racing w)

def isStored : Option Fetched → Bool
  | some (.ok _) => true
  | _ => false

theorem isStored_iff {out : Option Fetched} :
    isStored out = true ↔ ∃ res, out = some (.ok res) := by
  cases out with
  | none => simp [isStored]
  | some r => cases r <;> simp [isStored]

def ahead (s : Stream cfg) (w : Nat) : Finset Nat :=
  {i ∈ Ioc w (lastAhead cfg w) | isStored (s.results i)}

theorem mem_ahead (hL : s.Layout) (hF : s.Flow) (hw : s.pos = w) {j : Nat} (hj : w < j)
    (hres : s.results j = some (.ok res)) : j ∈ s.ahead w := by
  have hentered := hL.lt_of_done ((hL.results_iff j).mp (by simp [hres]))
  have hle := hL.entered_le
  have hopen := (hF.gates_iff _).mp (hF.opened j hentered)
  rw [hw] at hopen
  simp only [ahead, mem_filter, mem_Ioc, hres, lastAhead]
  refine ⟨⟨hj, ?_⟩, rfl⟩
  omega

theorem buf_eq_ahead (hI : s.Inv (Sized len)) (hF : s.Flow) (hw : s.pos = w)
    (hnone : s.results w = none) : s.bufBytes = ∑ i ∈ s.ahead w, len i := by
  have hsub : s.ahead w ⊆ Ico w cfg.numChunks := by
    intro i hi
    have hlt := hF.pos_lt
    simp only [ahead, mem_filter, mem_Ioc, lastAhead] at hi
    rw [mem_Ico]
    omega
  have hsize : ∀ i ∈ s.ahead w, size (s.results i) = len i := by
    intro i hi
    obtain ⟨r, hr⟩ := isStored_iff.mp (mem_filter.mp hi).2
    rw [hr]
    exact hI.has i r (.inl hr)
  have hzero : ∀ i ∈ Ico w cfg.numChunks, i ∉ s.ahead w → size (s.results i) = 0 := by
    intro i hi hni
    cases hr : s.results i with
    | none => rfl
    | some r =>
      cases r with
      | error exc => rfl
      | ok r =>
        have hne : i ≠ w := by rintro rfl; rw [hnone] at hr; cases hr
        have hle := (mem_Ico.mp hi).1
        exact absurd (mem_ahead hI.layout hF hw (by omega) hr) hni
  rw [hF.buf_eq, hw, ← sum_subset hsub hzero]
  exact sum_congr rfl hsize

theorem deadlockFree_of_roomy (hrace : cfg.race = false) (hP : 0 < cfg.prefetchAhead)
    (hW : 0 < cfg.maxWorkers) (hM : ∀ i < cfg.numChunks, len i ≤ cfg.maxBufferBytes)
    (hroomy : Roomy cfg len) : DeadlockFree cfg len := by
  intro s hs ha
  have hI := inv_of_reach hrace hs
  have hF := hI.flow ha
  by_contra hstuck
  cases hw : s.writer with
  | finished failedAt => simp [Active, hw] at ha
  | cancelled => simp [Active, hw] at ha
  | writing i res => exact hstuck (moves_of_writing hw)
  | waitReady w =>
    obtain ⟨hheld, res, hpc⟩ := waitSpace_of_stuck hP hW hI.layout hF hw hstuck
    have hpos : s.pos = w := by simp [pos, hw]
    have hnone : s.results w = none := by
      rw [← Option.not_isSome_iff_eq_none, hI.layout.results_iff]
      simp [hpc]
    have hbuf := buf_eq_ahead hI hF hpos hnone
    have hfull := hF.waiting w res hpc
    have hlen : res.data.length = len w := hI.has w res (.inr (.inl hpc))
    have hlt := hpos ▸ hF.pos_lt
    rcases hroomy with hone | hroom
    · have hempty : s.ahead w = ∅ := by
        rw [eq_empty_iff_forall_notMem]
        intro j hj
        obtain ⟨r, hr⟩ := isStored_iff.mp (mem_filter.mp hj).2
        have hdone := (hI.layout.results_iff j).mp (by simp [hr])
        have hnw : j ∉ s.fetchSem.waiters := fun hq => by
          simp [hI.layout.queued j hq] at hdone
        have hle := hF.lone hone w hheld j (hI.layout.lt_of_done hdone) hnw
        have := (mem_Ioc.mp (mem_filter.mp hj).1).1
        omega
      have := hM w hlt
      rw [hempty, sum_empty] at hbuf
      omega
    · have hle := hF.buf_le
      have := hroom w hlt (s.ahead w) (filter_subset ..) (by omega)
      omega

end Progress

section Stuck

variable {i j w : Nat} {S : Finset Nat}

abbrev ReachSized (cfg : StreamConfig) (len : Nat → Nat) : Stream cfg → Prop :=
  (machine cfg).Reach (Returns (Sized len))

def chunkOf (len : Nat → Nat) (i : Nat) : ChunkResult := ⟨i, List.replicate (len i) 0, 206, ""⟩

theorem reach_enter (hs : ReachSized cfg len s) (ha : s.Active) (hlt : s.entered < cfg.numChunks)
    (hg : s.gates (s.entered - cfg.prefetchAhead) = true) : ReachSized cfg len s.enterTask :=
  .step hs (show Returns _ s .enter from trivial) (by simp [machine, step, ha, hlt, hg])

theorem reach_offer (hs : ReachSized cfg len s) (ha : s.Active) (hpc : s.tasks i = .sem)
    (hi : i ∈ s.fetchSem.holders) : ReachSized cfg len (s.offer i (chunkOf len i)) :=
  .step hs (show Returns _ s (.fetchReturn i (.ok (chunkOf len i))) by simp [Returns, Sized, chunkOf])
    (by simp [machine, step, ha, hpc, hi])

theorem reach_fail (hs : ReachSized cfg len s) (ha : s.Active) (hpc : s.tasks i = .sem)
    (hi : i ∈ s.fetchSem.holders) : ReachSized cfg len (s.finishTask i (.error .timeout)) :=
  .step hs (show Returns _ s (.fetchReturn i (.error .timeout)) from trivial)
    (by simp [machine, step, ha, hpc, hi])

theorem holder_of_few (hL : s.Layout) {T : Finset Nat} (hcard : T.card ≤ cfg.maxWorkers)
    (hT : ∀ i < s.entered, s.tasks i ≠ .done → i ∈ T) (hi : i < s.entered)
    (hpc : s.tasks i ≠ .done) : i ∈ s.fetchSem.holders := by
  rcases (hL.inside i).mpr ⟨hi, hpc⟩ with hheld | hwait
  · exact hheld
  · exfalso
    have hfull := s.fetchSem.full (List.ne_nil_of_mem hwait)
    have hsub : s.fetchSem.holders.toFinset ⊆ T.erase i := by
      intro j hj
      have hj := List.mem_toFinset.mp hj
      have hpast := hL.of_holder hj
      refine mem_erase.mpr ⟨?_, hT j hpast.1 hpast.2⟩
      rintro rfl
      exact hL.inOrder.disjoint j hj hwait
    have hle := card_le_card hsub
    rw [List.toFinset_card_of_nodup hL.inOrder.nodup, hfull,
      card_erase_of_mem (hT i hi hpc)] at hle
    have hpos := card_pos.mpr ⟨i, hT i hi hpc⟩
    omega

/-- Chunk `w` is being fetched, and of the chunks after it those below `j` have been: the ones in
`S` came back with their bytes, the others failed. -/
structure Filled (len : Nat → Nat) (S : Finset Nat) (w j : Nat) (s : Stream cfg) : Prop where
  reach : ReachSized cfg len s
  writer : s.writer = .waitReady w
  entered : s.entered = j
  done : ∀ i < j, i ≠ w → s.tasks i = .done
  fetching : w < j → s.tasks w = .sem
  results : ∀ i, w < i → i < j →
    s.results i = some (if i ∈ S then .ok (chunkOf len i) else .error .timeout)

namespace Filled

variable (h : Filled len S w j s)

include h

theorem active : s.Active := by simp [Active, h.writer]

theorem pos_eq : s.pos = w := by simp [pos, h.writer]

theorem tasks_of_le (hrace : cfg.race = false) (hi : j ≤ i) : s.tasks i = .gate :=
  ((inv_of_reach hrace h.reach).layout.gate_iff i).mpr (h.entered ▸ hi)

theorem results_of_le (hrace : cfg.race = false) (hi : j ≤ i) : s.results i = none := by
  rw [← Option.not_isSome_iff_eq_none, (inv_of_reach hrace h.reach).layout.results_iff,
    h.tasks_of_le hrace hi]
  simp

theorem enter (hrace : cfg.race = false) (hwj : w ≤ j) (hlt : j < cfg.numChunks)
    (hreach : j - cfg.prefetchAhead < cfg.prefetchAhead ∨ j - cfg.prefetchAhead ≤ w)
    (hP : 0 < cfg.prefetchAhead) (hW : ({w, j} : Finset Nat).card ≤ cfg.maxWorkers) :
    ReachSized cfg len s.enterTask ∧ j ∈ s.enterTask.fetchSem.holders ∧
      (w < j → w ∈ s.enterTask.fetchSem.holders) := by
  have hI := inv_of_reach hrace h.reach
  have hF := hI.flow h.active
  have hgate : s.gates (s.entered - cfg.prefetchAhead) = true := by
    rw [hF.gates_iff, h.pos_eq, h.entered]
    omega
  have hr := reach_enter h.reach h.active (h.entered ▸ hlt) hgate
  have hL := (inv_of_reach hrace hr).layout
  have hT : ∀ i < s.enterTask.entered, s.enterTask.tasks i ≠ .done →
      i ∈ ({w, j} : Finset Nat) := by
    intro i hi hpc
    simp only [enterTask, h.entered] at hi hpc
    simp only [mem_insert, mem_singleton]
    by_contra hne
    rw [not_or] at hne
    apply hpc
    rw [Function.update_of_ne hne.2]
    exact h.done i (by omega) hne.1
  refine ⟨hr, ?_, fun hlt' => ?_⟩
  · apply holder_of_few hL hW hT
    · simp [enterTask, h.entered]
    · simp [enterTask, h.entered]
  · apply holder_of_few hL hW hT
    · simp only [enterTask, h.entered]; omega
    · simp [enterTask, h.entered, Nat.ne_of_lt hlt', h.fetching hlt']

theorem buf_eq (hrace : cfg.race = false) (hS : S ⊆ Ioc w (lastAhead cfg w)) (hwj : w < j) :
    s.bufBytes = ∑ i ∈ S with i < j, len i := by
  have hI := inv_of_reach hrace h.reach
  have hnone : s.results w = none := by
    rw [← Option.not_isSome_iff_eq_none, hI.layout.results_iff, h.fetching hwj]
    simp
  rw [buf_eq_ahead hI (hI.flow h.active) h.pos_eq hnone]
  congr 1
  ext i
  simp only [ahead, mem_filter]
  rcases Nat.lt_or_ge i j with hij | hij
  · constructor
    · rintro ⟨hmem, hst⟩
      rw [h.results i (mem_Ioc.mp hmem).1 hij] at hst
      split at hst
      · next hi => exact ⟨hi, hij⟩
      · simp [isStored] at hst
    · rintro ⟨hi, -⟩
      refine ⟨hS hi, ?_⟩
      rw [h.results i (mem_Ioc.mp (hS hi)).1 hij, if_pos hi]
      rfl
  · constructor
    · rintro ⟨-, hst⟩
      rw [h.results_of_le hrace hij] at hst
      cases hst
    · rintro ⟨-, hlt⟩
      omega

theorem finish (hwj : w < j) {n : Nat} {out : Fetched}
    (hout : out = if j ∈ S then .ok (chunkOf len j) else .error .timeout)
    (hr : ReachSized cfg len ({ s.enterTask with bufBytes := n }.finishTask j out)) :
    Filled len S w (j + 1) ({ s.enterTask with bufBytes := n }.finishTask j out) where
  reach := hr
  writer := h.writer
  entered := by simp [finishTask, enterTask, h.entered]
  done i hi hne := by
    by_cases hij : i = j
    · simp [finishTask, hij]
    · simpa [finishTask, enterTask, hij, h.entered] using h.done i (by omega) hne
  fetching _ := by
    simpa [finishTask, enterTask, Nat.ne_of_lt hwj, h.entered] using h.fetching hwj
  results i hwi hi := by
    by_cases hij : i = j
    · simp [finishTask, hij, hout]
    · simpa [finishTask, enterTask, hij] using h.results i hwi (by omega)

theorem next (hrace : cfg.race = false) (hP : 0 < cfg.prefetchAhead) (hW : 2 ≤ cfg.maxWorkers)
    (hS : S ⊆ Ioc w (lastAhead cfg w)) (hfit : ∑ i ∈ S, len i ≤ cfg.maxBufferBytes)
    (hn : w < cfg.numChunks) (hwj : w < j) (hj : j ≤ lastAhead cfg w) :
    ∃ s' : Stream cfg, Filled len S w (j + 1) s' := by
  have hlast : j ≤ cfg.numChunks - 1 ∧
      j ≤ max (2 * cfg.prefetchAhead - 1) (w + cfg.prefetchAhead) := le_min_iff.mp hj
  obtain ⟨hr, hheld, -⟩ := h.enter hrace hwj.le (by omega) (by omega) hP
    (le_trans (card_le_two) hW)
  have hpc : s.enterTask.tasks j = .sem := by simp [enterTask, h.entered]
  by_cases hjS : j ∈ S
  · have hroom : s.bufBytes + len j ≤ cfg.maxBufferBytes := by
      rw [h.buf_eq hrace hS hwj]
      have hinsert : ({i ∈ S | i < j} : Finset Nat) ∪ {j} ⊆ S := by
        apply union_subset (filter_subset ..)
        simpa using hjS
      have hsum := sum_le_sum_of_subset (f := len) hinsert
      rw [sum_union (by simp), sum_singleton] at hsum
      exact hsum.trans hfit
    have hoffer := reach_offer hr (by exact h.active) hpc hheld
    rw [offer, if_pos (by simpa [chunkOf, enterTask] using hroom)] at hoffer
    exact ⟨_, h.finish hwj (by rw [if_pos hjS]) hoffer⟩
  · exact ⟨_, h.finish hwj (by rw [if_neg hjS]) (reach_fail hr (by exact h.active) hpc hheld)⟩

theorem upTo (hrace : cfg.race = false) (hP : 0 < cfg.prefetchAhead) (hW : 2 ≤ cfg.maxWorkers)
    (hS : S ⊆ Ioc w (lastAhead cfg w)) (hfit : ∑ i ∈ S, len i ≤ cfg.maxBufferBytes)
    (hn : w < cfg.numChunks) (hwj : w < j) {k : Nat} (hjk : j ≤ k)
    (hk : k ≤ lastAhead cfg w + 1) : ∃ s' : Stream cfg, Filled len S w k s' := by
  induction k, hjk using Nat.le_induction with
  | base => exact ⟨s, h⟩
  | succ k hjk ih =>
    obtain ⟨s', h'⟩ := ih (by omega)
    exact h'.next hrace hP hW hS hfit hn (by omega) (by omega)

end Filled

abbrev Drained (len : Nat → Nat) (k : Nat) (s : Stream cfg) : Prop := Filled len ∅ k k s

theorem drained_init (hrace : cfg.race = false) (hn : 0 < cfg.numChunks) :
    Drained len 0 (init cfg) where
  reach := .init
  writer := by simp [init, loopHead, hn]
  entered := by simp [init, hrace]
  done _ hi := absurd hi (Nat.not_lt_zero _)
  fetching hlt := absurd hlt (lt_irrefl _)
  results _ _ hi := absurd hi (Nat.not_lt_zero _)

theorem drained_succ (hrace : cfg.race = false) (hP : 0 < cfg.prefetchAhead)
    (hW : 0 < cfg.maxWorkers) (hM : ∀ i < cfg.numChunks, len i ≤ cfg.maxBufferBytes) {k : Nat}
    (hk : k + 1 < cfg.numChunks) (h : Drained len k s) :
    ∃ s' : Stream cfg, Drained len (k + 1) s' := by
  obtain ⟨hr, hheld, -⟩ := h.enter hrace le_rfl (by omega) (by omega) hP
    (by simpa using Nat.succ_le_of_lt hW)
  have hI := inv_of_reach hrace h.reach
  have hbuf : s.bufBytes = 0 := by
    rw [(hI.flow h.active).buf_eq, h.pos_eq]
    apply sum_eq_zero
    intro i hi
    rw [h.results_of_le hrace (mem_Ico.mp hi).1]
    rfl
  have hpc : s.enterTask.tasks k = .sem := by simp [enterTask, h.entered]
  have hoffer := reach_offer hr (by exact h.active) hpc hheld
  have hroom : s.enterTask.bufBytes + (chunkOf len k).data.length ≤ cfg.maxBufferBytes := by
    simpa [enterTask, chunkOf, hbuf] using hM k (by omega)
  rw [offer, if_pos hroom] at hoffer
  generalize hs2 : finishTask _ k (.ok (chunkOf len k)) = s2 at hoffer
  have hw2 : s2.writer = .waitReady k := by rw [← hs2]; exact h.writer
  have hres2 : s2.results k = some (.ok (chunkOf len k)) := by simp [← hs2, finishTask]
  have hready2 : s2.ready k = true := by simp [← hs2, finishTask]
  have hdone2 : ∀ i < k + 1, s2.tasks i = .done := by
    intro i hi
    by_cases hik : i = k
    · simp [← hs2, finishTask, hik]
    · have hdone := h.done i (by omega) hik
      simpa [← hs2, finishTask, enterTask, h.entered, hik] using hdone
  have hentered2 : s2.entered = k + 1 := by simp [← hs2, finishTask, enterTask, h.entered]
  have hread : ReachSized cfg len { s2 with
      writer := .writing k (chunkOf len k), written := s2.written ++ (chunkOf len k).data } :=
    .step hoffer (show Returns _ s2 .writerWake from trivial)
      (by simp [machine, step, hw2, hready2, afterReady, hres2])
  refine ⟨_, .step hread (show Returns _ _ .writeDone from trivial) rfl, ?_, hentered2, ?_, ?_, ?_⟩
  · exact if_pos hk
  · intro i hi _
    simp [afterWrite, hdone2 i hi, wake]
  · exact fun hlt => absurd hlt (lt_irrefl _)
  · exact fun i hi hi' => absurd hi' (by omega)

theorem exists_drained (hrace : cfg.race = false) (hP : 0 < cfg.prefetchAhead)
    (hW : 0 < cfg.maxWorkers) (hM : ∀ i < cfg.numChunks, len i ≤ cfg.maxBufferBytes) {k : Nat}
    (hk : k < cfg.numChunks) : ∃ s : Stream cfg, Drained len k s := by
  induction k with
  | zero => exact ⟨_, drained_init hrace hk⟩
  | succ k ih =>
    obtain ⟨s, h⟩ := ih (by omega)
    exact drained_succ hrace hP hW hM hk h

theorem filled_of_drained (hrace : cfg.race = false) (hP : 0 < cfg.prefetchAhead)
    (hW : 0 < cfg.maxWorkers) (hw : w < cfg.numChunks) (h : Drained len w s) :
    Filled len S w (w + 1) s.enterTask where
  reach := (h.enter hrace le_rfl hw (by omega) hP (by simpa using Nat.succ_le_of_lt hW)).1
  writer := h.writer
  entered := by simp [enterTask, h.entered]
  done i hi hne := by simpa [enterTask, h.entered, hne] using h.done i (by omega) hne
  fetching _ := by simp [enterTask, h.entered]
  results i hwi hi := absurd hi (by omega)

/-- Once everything in reach has come back, the fetch of `w` finds the buffer full of chunks that
are written after it. -/
theorem stuck_of_filled (hrace : cfg.race = false) (hW : 0 < cfg.maxWorkers)
    (hS : S ⊆ Ioc w (lastAhead cfg w)) (hw : w < cfg.numChunks)
    (hfull : cfg.maxBufferBytes < len w + ∑ i ∈ S, len i)
    (h : Filled len S w (lastAhead cfg w + 1) s) : ¬ DeadlockFree cfg len := by
  have hlast : w ≤ lastAhead cfg w := le_min (by omega) (by omega)
  have hI := inv_of_reach hrace h.reach
  have hpc := h.fetching (by omega)
  have honly : ∀ i < s.entered, s.tasks i ≠ .done → i ∈ ({w} : Finset Nat) := by
    intro i hi hne
    by_contra hiw
    exact hne (h.done i (h.entered ▸ hi) (by simpa using hiw))
  have hentered : w < s.entered := by rw [h.entered]; omega
  have hne : s.tasks w ≠ .done := by simp [hpc]
  have hheld := holder_of_few hI.layout (by simpa using Nat.succ_le_of_lt hW) honly hentered hne
  have hbuf : s.bufBytes = ∑ i ∈ S, len i := by
    rw [h.buf_eq hrace hS (by omega)]
    congr 1
    exact filter_true_of_mem fun i hi => Nat.lt_succ_of_le (mem_Ioc.mp (hS hi)).2
  have hoffer := reach_offer h.reach h.active hpc hheld
  rw [offer, if_neg (by simp only [chunkOf, List.length_replicate, hbuf]; omega)] at hoffer
  intro hfree
  obtain ⟨l, hl, hsome⟩ := hfree _ hoffer h.active
  revert hsome
  rw [imp_false, Bool.not_eq_true, Option.isSome_eq_false_iff, Option.isNone_iff_eq_none]
  have hparked : ∀ i, Function.update s.tasks w (.waitSpace (chunkOf len w)) i = .done ∨
      Function.update s.tasks w (.waitSpace (chunkOf len w)) i = .gate ∨
      Function.update s.tasks w (.waitSpace (chunkOf len w)) i = .waitSpace (chunkOf len w) := by
    intro i
    by_cases hiw : i = w
    · simp [hiw]
    · rw [Function.update_of_ne hiw]
      rcases Nat.lt_or_ge i (lastAhead cfg w + 1) with hi | hi
      · exact .inl (h.done i hi hiw)
      · exact .inr (.inl (h.tasks_of_le hrace hi))
  cases l with
  | enter =>
    simp only [step, ite_eq_right_iff]
    rintro ⟨-, hlt, hgate⟩
    exfalso
    rw [(hI.flow h.active).gates_iff, h.pos_eq] at hgate
    have heq := h.entered
    simp only [lastAhead] at heq
    omega
  | fetchReturn i res =>
    simp only [step]
    rw [if_neg]
    rintro ⟨-, hsem, -⟩
    rcases hparked i with hi | hi | hi <;> rw [hi] at hsem <;> cases hsem
  | recheck i =>
    simp only [step]
    rcases hparked i with hi | hi | hi <;> rw [hi]
  | writerWake =>
    have hready : s.ready w = false := by
      rw [← Bool.not_eq_true, hI.layout.ready_iff]
      exact hne
    simp [step, h.writer, hready]
  | writeDone => simp [step, h.writer]
  | writeFail => exact absurd hl id
  | cancel => exact absurd hl id
  | race l =>
    simp only [step]
    rw [if_neg]
    rintro ⟨-, hracing⟩
    rcases hparked 0 with hi | hi | hi <;> rw [hi] at hracing <;> cases hracing

/-- Chunks after `w` that fit into the buffer only without `w` bring the stream to a halt. -/
theorem not_deadlockFree (hrace : cfg.race = false) (hP : 0 < cfg.prefetchAhead)
    (hW : 2 ≤ cfg.maxWorkers) (hM : ∀ i < cfg.numChunks, len i ≤ cfg.maxBufferBytes)
    (hw : w < cfg.numChunks) (hS : S ⊆ Ioc w (lastAhead cfg w))
    (hfit : ∑ i ∈ S, len i ≤ cfg.maxBufferBytes)
    (hfull : cfg.maxBufferBytes < len w + ∑ i ∈ S, len i) : ¬ DeadlockFree cfg len := by
  have hlast : w ≤ lastAhead cfg w := le_min (by omega) (by omega)
  obtain ⟨s, hs⟩ := exists_drained hrace hP (by omega) hM hw
  obtain ⟨s', hs'⟩ := (filled_of_drained (S := S) hrace hP (by omega) hw hs).upTo hrace hP hW hS
    hfit hw (by omega) (by omega) le_rfl
  exact stuck_of_filled hrace (by omega) hS hw hfull hs'

end Stuck

/-- The pipeline is free of deadlocks exactly if it fetches one chunk at a time or no chunk can
be crowded out of the buffer by chunks after it that are in prefetch reach. -/
theorem deadlockFree_iff (cfg : StreamConfig) (len : Nat → Nat) (hrace : cfg.race = false)
    (hP : 1 ≤ cfg.prefetchAhead) (hW : 1 ≤ cfg.maxWorkers)
    (hM : ∀ i < cfg.numChunks, len i ≤ cfg.maxBufferBytes) :
    DeadlockFree cfg len ↔ Roomy cfg len := by
  constructor
  · intro hfree
    by_contra hroomy
    simp only [Roomy, not_or, not_forall, not_le] at hroomy
    obtain ⟨hone, w, hw, S, hS, hfit, hfull⟩ := hroomy
    exact not_deadlockFree hrace hP (by omega) hM hw hS hfit hfull hfree
  · exact deadlockFree_of_roomy hrace hP hW hM

theorem deadlockFree_of_one_worker : DeadlockFree ⟨2, 1, 2, 10, false⟩ (fun _ => 10) :=
  (deadlockFree_iff _ _ rfl (by decide) (by decide) (by simp)).mpr (.inl rfl)

/-- Two chunks of ten bytes, two workers and a buffer of ten bytes: when chunk 1 comes back
first it fills the buffer, and chunk 0 waits for space that only its own write would free. -/
theorem deadlock_of_second_chunk_first :
    ¬ ∀ cfg len, cfg.race = false → 1 ≤ cfg.prefetchAhead → 1 ≤ cfg.maxWorkers →
      (∀ i < cfg.numChunks, len i ≤ cfg.maxBufferBytes) → DeadlockFree cfg len := by
  intro h
  have hstuck : ¬ DeadlockFree ⟨2, 2, 1, 10, false⟩ (fun _ => 10) :=
    not_deadlockFree (w := 0) (S := {1}) rfl (by decide) (by decide) (by simp) (by decide)
      (by decide) (by simp) (by simp)
  exact hstuck (h _ _ rfl (by decide) (by decide) (by simp))

end ProxySplit.Stream
