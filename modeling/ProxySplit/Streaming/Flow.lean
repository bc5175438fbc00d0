import ProxySplit.Streaming.Layout
import Mathlib.Algebra.BigOperators.Intervals

namespace ProxySplit.Stream

open Lib Finset

variable {cfg : StreamConfig} {s s' : Stream cfg} {l : Label}

inductive Move (s : Stream cfg) : Label → Stream cfg → Prop
  | enter (active : s.Active) (lt : s.entered < cfg.numChunks)
      (gate : s.gates (s.entered - cfg.prefetchAhead) = true) :
      Move s .enter s.enterTask
  | fetched (i : Nat) (res : ChunkResult) (active : s.Active) (pc : s.tasks i = .sem)
      (held : i ∈ s.fetchSem.holders) : Move s (.fetchReturn i (.ok res)) (s.offer i res)
  | failed (i : Nat) (exc : PyExc) (active : s.Active) (pc : s.tasks i = .sem)
      (held : i ∈ s.fetchSem.holders) :
      Move s (.fetchReturn i (.error exc)) (s.finishTask i (.error exc))
  | rechecked (i : Nat) (res : ChunkResult) (active : s.Active) (pc : s.tasks i = .recheck res) :
      Move s (.recheck i) (s.offer i res)
  | read (i : Nat) (writer : s.writer = .waitReady i) (ready : s.ready i = true) :
      Move s .writerWake (s.afterReady i)
  | wrote (i : Nat) (res : ChunkResult) (writer : s.writer = .writing i res) :
      Move s .writeDone (s.afterWrite i res)
  | writeFailed (i : Nat) (res : ChunkResult) (writer : s.writer = .writing i res) :
      Move s .writeFail { s with writer := .finished (some (-1)) }
  | cancelled (active : s.Active) : Move s .cancel { s with writer := .cancelled }

theorem move_or_race (h : s.step l = some s') : Move s l s' ∨ ∃ r race, l = .race r ∧ s.Active ∧
    s.tasks 0 = .racing ∧ s.race.step r = some race ∧ s' = s.storeRace race := by
  cases l with
  | enter =>
    simp only [step] at h
    split at h
    · next hc => cases h; exact .inl (.enter hc.1 hc.2.1 hc.2.2)
    · cases h
  | fetchReturn i res =>
    simp only [step] at h
    split at h
    · next hc =>
      cases res with
      | ok res => cases h; exact .inl (.fetched i res hc.1 hc.2.1 hc.2.2.1)
      | error exc => cases h; exact .inl (.failed i exc hc.1 hc.2.1 hc.2.2.1)
    · cases h
  | recheck i =>
    simp only [step] at h
    split at h
    · next res hpc =>
      split at h
      · next hactive => cases h; exact .inl (.rechecked i res hactive hpc)
      · cases h
    · cases h
  | writerWake =>
    simp only [step] at h
    split at h
    · next i hw =>
      split at h
      · next hr => cases h; exact .inl (.read i hw hr)
      · cases h
    · cases h
  | writeDone =>
    simp only [step] at h
    split at h
    · next i res hw => cases h; exact .inl (.wrote i res hw)
    · cases h
  | writeFail =>
    simp only [step] at h
    split at h
    · next i res hw => cases h; exact .inl (.writeFailed i res hw)
    · cases h
  | cancel =>
    simp only [step] at h
    split at h
    · next hactive => cases h; exact .inl (.cancelled hactive)
    · cases h
  | race r =>
    simp only [step] at h
    split at h
    · next hc =>
      obtain ⟨race, hrace, rfl⟩ := Option.map_eq_some_iff.mp h
      exact .inr ⟨r, race, rfl, hc.1, hc.2, hrace, rfl⟩
    · cases h

theorem move_of_step (h : s.step l = some s') (hrace : s.tasks 0 ≠ .racing) : Move s l s' := by
  rcases move_or_race h with hm | ⟨-, -, -, -, hracing, -, -⟩
  · exact hm
  · exact absurd hracing hrace

theorem Layout.holder_of_pc (h : s.Layout) {i : Nat} (hdone : s.tasks i ≠ .done)
    (hgate : s.tasks i ≠ .gate) (hsem : s.tasks i ≠ .sem) : i ∈ s.fetchSem.holders := by
  have hlt : i < s.entered := by
    by_contra hle
    exact hgate ((h.gate_iff i).mpr (not_lt.mp hle))
  rcases (h.inside i).mpr ⟨hlt, hdone⟩ with hi | hi
  · exact hi
  · exact absurd (h.queued i hi) hsem

theorem Layout.holder_of_recheck (h : s.Layout) {i : Nat} {res : ChunkResult}
    (hpc : s.tasks i = .recheck res) : i ∈ s.fetchSem.holders :=
  h.holder_of_pc (by simp [hpc]) (by simp [hpc]) (by simp [hpc])

theorem Layout.move (h : s.Layout) (hm : Move s l s') : s'.Layout := by
  cases hm with
  | enter active lt gate => exact h.enterTask lt
  | fetched i res active pc held => exact h.offer held res
  | failed i exc active pc held => exact h.finishTask held _
  | rechecked i res active pc => exact h.offer (h.holder_of_recheck pc) res
  | read i writer ready => exact h.afterReady i
  | wrote i res writer => exact h.afterWrite i res
  | writeFailed i res writer =>
    exact h.congr rfl rfl rfl rfl (fun _ => .rfl) (fun _ => .rfl) (fun _ => .rfl) fun _ _ => rfl
  | cancelled active =>
    exact h.congr rfl rfl rfl rfl (fun _ => .rfl) (fun _ => .rfl) (fun _ => .rfl) fun _ _ => rfl

def Has (s : Stream cfg) (i : Nat) (res : ChunkResult) : Prop :=
  s.results i = some (.ok res) ∨ s.tasks i = .waitSpace res ∨ s.tasks i = .recheck res

def Returns (D : Nat → ChunkResult → Prop) (_ : Stream cfg) : Label → Prop
  | .fetchReturn i (.ok res) => D i res
  | _ => True

theorem has_finishTask {i j : Nat} {out : Fetched} {res : ChunkResult}
    (h : (s.finishTask i out).Has j res) : s.Has j res ∨ j = i ∧ out = .ok res := by
  by_cases hj : j = i
  · subst hj
    simp only [Has, finishTask, Function.update_self, reduceCtorEq, or_false,
      Option.some.injEq] at h
    exact .inr ⟨rfl, h⟩
  · left
    simpa only [Has, finishTask, Function.update_of_ne hj] using h

theorem has_offer {i j : Nat} {r res : ChunkResult} (h : (s.offer i r).Has j res) :
    s.Has j res ∨ j = i ∧ r = res := by
  unfold offer at h
  split at h
  · rcases has_finishTask h with h | ⟨hj, hr⟩
    · exact .inl h
    · cases hr; exact .inr ⟨hj, rfl⟩
  · by_cases hj : j = i
    · subst hj
      simp only [Has, Function.update_self, TaskPc.waitSpace.injEq, reduceCtorEq, or_false] at h
      rcases h with h | h
      · exact .inl (.inl h)
      · exact .inr ⟨rfl, h⟩
    · left
      simpa only [Has, Function.update_of_ne hj] using h

theorem has_afterWrite {i j : Nat} {r res : ChunkResult} (h : (s.afterWrite i r).Has j res) :
    s.Has j res := by
  simp only [Has, afterWrite] at h
  unfold Has
  cases hpc : s.tasks j <;> simp_all [wake]

theorem has_of_move {D : Nat → ChunkResult → Prop}
    (hD : ∀ i res, s.Has i res → D i res) (hok : s.Returns D l) (hm : Move s l s') :
    ∀ i res, s'.Has i res → D i res := by
  intro j res' hj
  cases hm with
  | enter active lt gate =>
    apply hD
    by_cases hje : j = s.entered
    · subst hje
      simp only [Has, enterTask, Function.update_self, reduceCtorEq, or_false] at hj
      exact .inl hj
    · simpa only [Has, enterTask, Function.update_of_ne hje] using hj
  | fetched i res active pc held =>
    rcases has_offer hj with hj | ⟨rfl, rfl⟩
    · exact hD j _ hj
    · exact hok
  | failed i exc active pc held =>
    rcases has_finishTask hj with hj | ⟨-, hout⟩
    · exact hD j _ hj
    · cases hout
  | rechecked i res active pc =>
    rcases has_offer hj with hj | ⟨rfl, rfl⟩
    · exact hD j _ hj
    · exact hD j _ (.inr (.inr pc))
  | read i writer ready =>
    apply hD
    unfold afterReady at hj
    split at hj <;> exact hj
  | wrote i res writer => exact hD j _ (has_afterWrite hj)
  | writeFailed i res writer => exact hD j _ hj
  | cancelled active => exact hD j _ hj

def pos (s : Stream cfg) : Nat :=
  match s.writer with
  | .waitReady i | .writing i _ => i
  | .finished _ | .cancelled => 0

def size : Option Fetched → Nat
  | some (.ok res) => res.data.length
  | _ => 0

/-- What holds until the write loop is left: which gates are open, what the buffer counts, and
who may have the semaphore when it has one permit. -/
structure Flow (s : Stream cfg) : Prop where
  pos_lt : s.pos < cfg.numChunks
  gates_iff : ∀ j, s.gates j = true ↔
    j < min cfg.prefetchAhead cfg.numChunks ∨ 0 < j ∧ j ≤ s.pos
  opened : ∀ i < s.entered, s.gates (i - cfg.prefetchAhead) = true
  released : ∀ i < s.pos, ∃ res, s.results i = some (.ok res)
  writing : ∀ i res, s.writer = .writing i res → s.results i = some (.ok res)
  buf_eq : s.bufBytes = ∑ i ∈ Ico s.pos cfg.numChunks, size (s.results i)
  buf_le : s.bufBytes ≤ cfg.maxBufferBytes
  waiting : ∀ i res, s.tasks i = .waitSpace res →
    cfg.maxBufferBytes < s.bufBytes + res.data.length
  lone : cfg.maxWorkers = 1 → ∀ i ∈ s.fetchSem.holders, ∀ j < s.entered,
    j ∉ s.fetchSem.waiters → j ≤ i

theorem active_loopHead {i : Nat} (h : s.writer = loopHead cfg i) (ha : s.Active) :
    i < cfg.numChunks ∧ s.writer = .waitReady i := by
  unfold loopHead at h
  split at h
  · next hi => exact ⟨hi, h⟩
  · simp [Active, h] at ha

theorem flow_init (hrace : cfg.race = false) (ha : (init cfg).Active) : (init cfg).Flow := by
  obtain ⟨hpos, hw⟩ := active_loopHead (s := init cfg) (i := 0) rfl ha
  have hzero : (init cfg).pos = 0 := by simp [pos, hw]
  constructor
  case pos_lt => rwa [hzero]
  case gates_iff =>
    intro j
    rw [hzero]
    simp only [init, decide_eq_true_eq]
    omega
  case opened => simp [init, hrace]
  case released => simp [hzero]
  case writing => simp [hw]
  case buf_eq => simp [init, size]
  case buf_le => simp [init]
  case waiting => simp [init, hrace]
  case lone => simp [init, Semaphore.idle]

theorem sum_size_update {f : Nat → Option Fetched} {a b i : Nat} (hi : i ∈ Ico a b)
    (hnone : f i = none) (out : Fetched) :
    ∑ j ∈ Ico a b, size (Function.update f i (some out) j) =
      ∑ j ∈ Ico a b, size (f j) + size (some out) := by
  rw [← add_sum_erase _ _ hi, ← add_sum_erase _ (fun j => size (f j)) hi, Function.update_self,
    hnone]
  have hsame : ∑ j ∈ (Ico a b).erase i, size (Function.update f i (some out) j) =
      ∑ j ∈ (Ico a b).erase i, size (f j) :=
    sum_congr rfl fun j hj => by rw [Function.update_of_ne (ne_of_mem_erase hj)]
  rw [hsame, Nat.add_comm]
  simp [size]

theorem lone_release (hL : s.Layout) {i : Nat} (hi : i ∈ s.fetchSem.holders)
    (hone : cfg.maxWorkers = 1) : ∀ k ∈ (s.fetchSem.release i).holders, ∀ j < s.entered,
      j ∉ (s.fetchSem.release i).waiters → j ≤ k := by
  have herase : s.fetchSem.holders.erase i = [] := by
    have hlen := List.length_erase_of_mem hi
    have hbound := s.fetchSem.bounded
    exact List.length_eq_zero_iff.mp (by omega)
  intro k hk j hj hnj
  rcases Semaphore.release_cases hi with ⟨-, hh, -⟩ | ⟨m, rest, hm, hh, hw⟩
  · simp [hh, herase] at hk
  · simp only [hh, herase, List.nil_append, List.mem_singleton] at hk
    subst hk
    by_cases hjm : j = k
    · exact hjm.le
    · rw [hw] at hnj
      exact (hL.inOrder.before j k hj (by simp [hm, hjm, hnj]) (by simp [hm])).le

theorem Flow.finishTask (hL : s.Layout) (hF : s.Flow) {i : Nat}
    (hi : i ∈ s.fetchSem.holders) (out : Fetched) (n : Nat) (hn : n = s.bufBytes + size (some out))
    (hfit : n ≤ cfg.maxBufferBytes) :
    ({ s with bufBytes := n }.finishTask i out).Flow := by
  have hpast := hL.of_holder hi
  have hnone : s.results i = none := by
    rw [← Option.not_isSome_iff_eq_none, hL.results_iff]
    exact hpast.2
  have hpos : s.pos ≤ i := by
    by_contra hlt
    obtain ⟨res, hres⟩ := hF.released i (not_le.mp hlt)
    rw [hres] at hnone
    cases hnone
  have hmem : i ∈ Ico s.pos cfg.numChunks :=
    mem_Ico.mpr ⟨hpos, hpast.1.trans_le hL.entered_le⟩
  constructor
  case pos_lt => exact hF.pos_lt
  case gates_iff => exact hF.gates_iff
  case opened => exact hF.opened
  case released =>
    intro j hj
    have hne : j ≠ i := by
      rintro rfl
      exact absurd hj (not_lt.mpr hpos)
    simpa only [Stream.finishTask, Function.update_of_ne hne] using hF.released j hj
  case writing =>
    intro j res hw
    have hres := hF.writing j res hw
    have hne : j ≠ i := by
      rintro rfl
      rw [hnone] at hres
      cases hres
    simpa only [Stream.finishTask, Function.update_of_ne hne] using hres
  case buf_eq => exact hn.trans (by rw [hF.buf_eq]; exact (sum_size_update hmem hnone out).symm)
  case buf_le => exact hfit
  case waiting =>
    intro j res hj
    by_cases hji : j = i
    · simp [Stream.finishTask, hji] at hj
    · simp only [Stream.finishTask, Function.update_of_ne hji] at hj ⊢
      have := hF.waiting j res hj
      omega
  case lone => exact fun hone => lone_release hL hi hone

theorem Flow.offer (hL : s.Layout) (hF : s.Flow) {i : Nat} (hi : i ∈ s.fetchSem.holders)
    (res : ChunkResult) : (s.offer i res).Flow := by
  unfold Stream.offer
  split
  · next hfit => exact Flow.finishTask hL hF hi _ _ rfl hfit
  · next hfull =>
    exact { hF with
      waiting := by
        intro j r hj
        by_cases hji : j = i
        · simp only [hji, Function.update_self, TaskPc.waitSpace.injEq] at hj
          subst hj
          exact not_le.mp hfull
        · simp only [Function.update_of_ne hji] at hj
          exact hF.waiting j r hj }

theorem Flow.enterTask (hF : s.Flow)
    (hgate : s.gates (s.entered - cfg.prefetchAhead) = true) : s.enterTask.Flow where
  pos_lt := hF.pos_lt
  gates_iff := hF.gates_iff
  opened i hi := by
    rcases Nat.lt_succ_iff_lt_or_eq.mp hi with hi | rfl
    · exact hF.opened i hi
    · exact hgate
  released := hF.released
  writing := hF.writing
  buf_eq := hF.buf_eq
  buf_le := hF.buf_le
  waiting i res hi := by
    by_cases hie : i = s.entered
    · simp [Stream.enterTask, hie] at hi
    · simp only [Stream.enterTask, Function.update_of_ne hie] at hi
      exact hF.waiting i res hi
  lone hone i hi j hj hnj := by
    rcases s.fetchSem.acquire_cases s.entered with ⟨-, hh, -⟩ | ⟨-, hh, hw⟩
    · have hbound := (s.fetchSem.acquire s.entered).bounded
      rw [hh, List.length_append, List.length_singleton] at hbound
      have hnil := List.length_eq_zero_iff.mp (by omega : s.fetchSem.holders.length = 0)
      have hj' : j < s.entered + 1 := hj
      simp only [Stream.enterTask, hh, hnil, List.nil_append, List.mem_singleton] at hi
      omega
    · simp only [Stream.enterTask, hh, hw, List.mem_append, List.mem_singleton, not_or] at hi hnj
      have hj' : j < s.entered + 1 := hj
      exact hF.lone hone i hi j (by omega) hnj.1

theorem Flow.afterReady (hF : s.Flow) {i : Nat} (hw : s.writer = .waitReady i)
    (ha : (s.afterReady i).Active) : (s.afterReady i).Flow := by
  unfold Stream.afterReady at ha ⊢
  have hpos : s.pos = i := by simp [pos, hw]
  split
  · next res hres =>
    have hpos' : pos { s with writer := .writing i res, written := s.written ++ res.data } = s.pos :=
      hpos.symm
    exact {
      pos_lt := hpos' ▸ hF.pos_lt
      gates_iff := hpos' ▸ hF.gates_iff
      opened := hF.opened
      released := hpos' ▸ hF.released
      writing := by
        intro j r hj
        simp only [WriterPc.writing.injEq] at hj
        rw [← hj.1, ← hj.2]
        exact hres
      buf_eq := hpos' ▸ hF.buf_eq
      buf_le := hF.buf_le
      waiting := hF.waiting
      lone := hF.lone }
  · next hres => simp [Active, hres] at ha
  · next hres => simp [Active, hres] at ha

theorem Flow.afterWrite (hF : s.Flow) {i : Nat} {res : ChunkResult}
    (hw : s.writer = .writing i res) (ha : (s.afterWrite i res).Active) :
    (s.afterWrite i res).Flow := by
  obtain ⟨hlt, hw'⟩ := active_loopHead (i := i + 1) rfl ha
  have hpos : s.pos = i := by simp [pos, hw]
  have hpos' : (s.afterWrite i res).pos = i + 1 := by simp [pos, hw']
  have hres := hF.writing i res hw
  have hopen : ∀ j, (s.afterWrite i res).gates j = true ↔ s.gates j = true ∨ j = i + 1 := by
    intro j
    simp only [Stream.afterWrite, if_pos hlt]
    by_cases hj : j = i + 1
    · simp [hj]
    · simp [hj]
  constructor
  case pos_lt => rwa [hpos']
  case gates_iff =>
    intro j
    rw [hopen, hF.gates_iff, hpos, hpos']
    omega
  case opened => exact fun j hj => (hopen _).mpr (.inl (hF.opened j hj))
  case released =>
    intro j hj
    rw [hpos'] at hj
    rcases Nat.lt_succ_iff_lt_or_eq.mp hj with hj | rfl
    · exact hF.released j (hpos ▸ hj)
    · exact ⟨res, hres⟩
  case writing => simp [hw']
  case buf_eq =>
    have hsplit := Finset.sum_eq_sum_Ico_succ_bot (hpos ▸ hF.pos_lt) fun j => size (s.results j)
    have hbuf := hF.buf_eq
    rw [hpos, hsplit, hres] at hbuf
    rw [hpos']
    change s.bufBytes - res.data.length = _
    rw [hbuf]
    exact Nat.add_sub_cancel_left ..
  case buf_le => exact (Nat.sub_le ..).trans hF.buf_le
  case waiting =>
    intro j r hj
    simp only [Stream.afterWrite] at hj
    cases hpc : s.tasks j <;> simp [wake, hpc] at hj
  case lone => exact hF.lone

theorem Flow.move (hL : s.Layout) (hF : s.Flow) (hm : Move s l s') (ha : s'.Active) :
    s'.Flow := by
  cases hm with
  | enter active lt gate => exact hF.enterTask gate
  | fetched i res active pc held => exact Flow.offer hL hF held res
  | failed i exc active pc held => exact Flow.finishTask hL hF held _ _ rfl hF.buf_le
  | rechecked i res active pc => exact Flow.offer hL hF (hL.holder_of_recheck pc) res
  | read i writer ready => exact hF.afterReady writer ha
  | wrote i res writer => exact hF.afterWrite writer ha
  | writeFailed i res writer => exact absurd ha id
  | cancelled active => exact absurd ha id

theorem Move.active (hm : Move s l s') : s.Active := by
  cases hm with
  | enter active _ _ => exact active
  | fetched _ _ active _ _ => exact active
  | failed _ _ active _ _ => exact active
  | rechecked _ _ active _ => exact active
  | read i writer ready => simp [Active, writer]
  | wrote i res writer => simp [Active, writer]
  | writeFailed i res writer => simp [Active, writer]
  | cancelled active => exact active

structure Inv (D : Nat → ChunkResult → Prop) (s : Stream cfg) : Prop where
  layout : s.Layout
  flow : s.Active → s.Flow
  has : ∀ i res, s.Has i res → D i res

theorem inv_of_reach (hrace : cfg.race = false) {D : Nat → ChunkResult → Prop}
    (h : (machine cfg).Reach (Returns D) s) : s.Inv D := by
  refine h.invariant (I := Inv D) ⟨layout_init hrace, flow_init hrace, ?_⟩ ?_
  · intro i res hi
    simp [machine, Has, init, hrace] at hi
  · intro s l s' hI hok hstep
    have hm := move_of_step hstep (hI.layout.no_racing 0)
    exact ⟨hI.layout.move hm, Flow.move hI.layout (hI.flow hm.active) hm,
      has_of_move hI.has hok hm⟩

end ProxySplit.Stream
