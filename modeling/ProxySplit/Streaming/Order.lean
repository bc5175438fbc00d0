import ProxySplit.Streaming.Flow

namespace ProxySplit.Stream

open Lib

variable {cfg : StreamConfig} {s s' : Stream cfg} {l : Label}

def dataOf : Option Fetched → Bytes
  | some (.ok res) => res.data
  | _ => []

def AtChunk (cfg : StreamConfig) (k : Nat) : WriterPc → Prop
  | .waitReady i => i = k
  | .writing i _ => i + 1 = k
  | .finished none => k = cfg.numChunks
  | .finished (some _) | .cancelled => True

structure Written (s : Stream cfg) (k : Nat) : Prop where
  le : k ≤ cfg.numChunks
  atChunk : AtChunk cfg k s.writer
  results : ∀ i < k, ∃ res, s.results i = some (.ok res)
  written_eq : s.written = (List.range k).flatMap fun i => dataOf (s.results i)

theorem atChunk_loopHead {k : Nat} (hk : k ≤ cfg.numChunks) :
    AtChunk cfg k (loopHead cfg k) := by
  unfold loopHead
  split
  · rfl
  · show k = cfg.numChunks
    omega

theorem written_init : Written (init cfg) 0 where
  le := Nat.zero_le _
  atChunk := atChunk_loopHead (Nat.zero_le _)
  results _ h := absurd h (Nat.not_lt_zero _)
  written_eq := rfl

namespace Written

variable {k : Nat}

theorem congr (h : s.Written k) (hat : AtChunk cfg k s'.writer) (hwritten : s'.written = s.written)
    (hresults : ∀ i < k, s'.results i = s.results i) : s'.Written k where
  le := h.le
  atChunk := hat
  results i hi := by rw [hresults i hi]; exact h.results i hi
  written_eq := by
    rw [hwritten, h.written_eq, List.flatMap_def, List.flatMap_def]
    congr 1
    exact List.map_congr_left fun i hi => by rw [hresults i (List.mem_range.mp hi)]

theorem finishTask (hL : s.Layout) (h : s.Written k) {i : Nat} (hi : i ∈ s.fetchSem.holders)
    (out : Fetched) : (s.finishTask i out).Written k := by
  refine h.congr h.atChunk rfl ?_
  intro j hj
  refine Function.update_of_ne ?_ ..
  rintro rfl
  obtain ⟨res, hres⟩ := h.results j hj
  have hsome : (s.results j).isSome = true := by rw [hres]; rfl
  exact (hL.of_holder hi).2 ((hL.results_iff j).mp hsome)

theorem offer (hL : s.Layout) (h : s.Written k) {i : Nat} (hi : i ∈ s.fetchSem.holders)
    (res : ChunkResult) : (s.offer i res).Written k := by
  unfold Stream.offer
  split
  · exact finishTask (s := { s with bufBytes := s.bufBytes + res.data.length })
      (hL.congr rfl rfl rfl rfl (fun _ => .rfl) (fun _ => .rfl) (fun _ => .rfl) fun _ _ => rfl)
      (h.congr h.atChunk rfl fun _ _ => rfl) hi _
  · exact h.congr h.atChunk rfl fun _ _ => rfl

theorem afterReady (h : s.Written k) {i : Nat} (hw : s.writer = .waitReady i) (hi : i < cfg.numChunks) :
    ∃ k, (s.afterReady i).Written k := by
  have hk : i = k := by
    have := h.atChunk
    rwa [hw] at this
  subst hk
  unfold Stream.afterReady
  split
  · next res hres =>
    refine ⟨i + 1, hi, rfl, ?_, ?_⟩
    · intro j hj
      rcases Nat.lt_succ_iff_lt_or_eq.mp hj with hj | rfl
      · exact h.results j hj
      · exact ⟨res, hres⟩
    · rw [List.range_succ, List.flatMap_append, ← h.written_eq]
      simp [hres, dataOf]
  · exact ⟨i, h.congr trivial rfl fun _ _ => rfl⟩
  · exact ⟨i, h.congr trivial rfl fun _ _ => rfl⟩

theorem afterWrite (h : s.Written k) {i : Nat} {res : ChunkResult} (hw : s.writer = .writing i res) :
    (s.afterWrite i res).Written k := by
  have hk : i + 1 = k := by
    have := h.atChunk
    rwa [hw] at this
  subst hk
  exact h.congr (atChunk_loopHead h.le) rfl fun _ _ => rfl

theorem move (hL : s.Layout) (hF : s.Active → s.Flow) (h : s.Written k) (hm : Move s l s') :
    ∃ k, s'.Written k := by
  cases hm with
  | enter active lt gate => exact ⟨k, h.congr h.atChunk rfl fun _ _ => rfl⟩
  | fetched i res active pc held => exact ⟨k, h.offer hL held res⟩
  | failed i exc active pc held => exact ⟨k, h.finishTask hL held _⟩
  | rechecked i res active pc => exact ⟨k, h.offer hL (hL.holder_of_recheck pc) res⟩
  | read i writer ready =>
    have hlt := (hF (by simp [Active, writer])).pos_lt
    rw [pos, writer] at hlt
    exact h.afterReady writer hlt
  | wrote i res writer => exact ⟨k, h.afterWrite writer⟩
  | writeFailed i res writer => exact ⟨k, h.congr trivial rfl fun _ _ => rfl⟩
  | cancelled active => exact ⟨k, h.congr trivial rfl fun _ _ => rfl⟩

end Written

/-- In every state of a run without a race the bytes written are the results of the first chunks, in
the order of the chunks. -/
theorem written_of_reach (hrace : cfg.race = false) {D : Nat → ChunkResult → Prop}
    (h : (machine cfg).Reach (Returns D) s) : ∃ k, s.Written k ∧
      ∀ i < k, ∃ res, s.results i = some (.ok res) ∧ D i res := by
  have hboth : s.Inv D ∧ ∃ k, s.Written k := by
    refine h.invariant (I := fun s => s.Inv D ∧ ∃ k, s.Written k)
      ⟨inv_of_reach hrace .init, 0, written_init⟩ ?_
    rintro s l s' ⟨hI, k, hk⟩ hok hstep
    have hm := move_of_step hstep (hI.layout.no_racing 0)
    exact ⟨⟨hI.layout.move hm, Flow.move hI.layout (hI.flow hm.active) hm,
      has_of_move hI.has hok hm⟩, hk.move hI.layout hI.flow hm⟩
  obtain ⟨hI, k, hk⟩ := hboth
  refine ⟨k, hk, ?_⟩
  intro i hi
  obtain ⟨res, hres⟩ := hk.results i hi
  exact ⟨res, hres, hI.has i res (.inl hres)⟩

section Outcome

def Succeeds (data : Nat → Bytes) (_ : Stream cfg) : Label → Prop
  | .fetchReturn i (.ok res) => res.data = data i
  | .fetchReturn _ (.error _) | .writeFail | .cancel => False
  | _ => True

instance (data : Nat → Bytes) (s : Stream cfg) : (l : Label) → Decidable (s.Succeeds data l)
  | .fetchReturn _ (.ok _) => inferInstanceAs (Decidable (_ = _))
  | .fetchReturn _ (.error _) | .writeFail | .cancel => inferInstanceAs (Decidable False)
  | .enter | .recheck _ | .writerWake | .writeDone | .race _ => inferInstanceAs (Decidable True)

def Failed (s : Stream cfg) : Prop := ∃ i exc, s.results i = some (.error exc)

structure Unbroken (s : Stream cfg) : Prop where
  not_failed : ¬ s.Failed
  finished : ¬ s.Active → s.writer = .finished none

theorem not_active_loopHead {i : Nat} (hw : s.writer = loopHead cfg i) (h : ¬ s.Active) :
    s.writer = .finished none := by
  unfold loopHead at hw
  split at hw
  · exact absurd (by simp [Active, hw]) h
  · exact hw

theorem failed_finishTask {i : Nat} {res : ChunkResult} (h : (s.finishTask i (.ok res)).Failed) :
    s.Failed := by
  obtain ⟨j, exc, hj⟩ := h
  refine ⟨j, exc, ?_⟩
  by_cases hji : j = i
  · simp [finishTask, hji] at hj
  · simpa [finishTask, hji] using hj

namespace Unbroken

theorem finishTask (h : s.Unbroken) (i : Nat) (res : ChunkResult) :
    (s.finishTask i (.ok res)).Unbroken :=
  ⟨fun hf => h.not_failed (failed_finishTask hf), h.finished⟩

theorem offer (h : s.Unbroken) (i : Nat) (res : ChunkResult) : (s.offer i res).Unbroken := by
  unfold Stream.offer
  split
  · exact finishTask (s := { s with bufBytes := s.bufBytes + res.data.length })
      ⟨h.not_failed, h.finished⟩ i res
  · exact ⟨h.not_failed, h.finished⟩

theorem afterReady (hL : s.Layout) (h : s.Unbroken) {i : Nat} (hready : s.ready i = true) :
    (s.afterReady i).Unbroken := by
  unfold Stream.afterReady
  split
  · exact ⟨h.not_failed, fun hactive => absurd trivial hactive⟩
  · next exc hres => exact absurd ⟨i, exc, hres⟩ h.not_failed
  · next hres =>
    have hsome := (hL.results_iff i).mpr ((hL.ready_iff i).mp hready)
    rw [hres] at hsome
    cases hsome

theorem move {data : Nat → Bytes} (hL : s.Layout) (h : s.Unbroken) (hok : s.Succeeds data l)
    (hm : Move s l s') : s'.Unbroken := by
  cases hm with
  | enter active lt gate => exact ⟨h.not_failed, h.finished⟩
  | fetched i res active pc held => exact h.offer i res
  | failed i exc active pc held => exact absurd hok id
  | rechecked i res active pc => exact h.offer i res
  | read i writer ready => exact h.afterReady hL ready
  | wrote i res writer => exact ⟨h.not_failed, not_active_loopHead rfl⟩
  | writeFailed i res writer => exact absurd hok id
  | cancelled active => exact absurd hok id

end Unbroken

end Outcome

end ProxySplit.Stream
