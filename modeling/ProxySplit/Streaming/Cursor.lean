import ProxySplit.Streaming.Flow

namespace ProxySplit.Stream

open Lib

variable {cfg : StreamConfig} {s s' : Stream cfg} {l : Label}

theorem wake_eq_gate {pc : TaskPc} : wake pc = .gate ↔ pc = .gate := by cases pc <;> simp [wake]

theorem wake_eq_racing {pc : TaskPc} : wake pc = .racing ↔ pc = .racing := by
  cases pc <;> simp [wake]

theorem wake_eq_done {pc : TaskPc} : wake pc = .done ↔ pc = .done := by cases pc <;> simp [wake]

theorem not_racing (hrace : cfg.race = false) (h : (machine cfg).Reachable s) : s.tasks 0 ≠ .racing := by
  have hI : s.Inv fun _ _ => True := inv_of_reach hrace (h.mono fun _ l _ => by
    unfold Returns
    split <;> trivial)
  exact hI.layout.no_racing 0

structure Progress where
  chunks : Nat
  bytes : Nat
  deriving DecidableEq

def Progress.after (p : Progress) (s : Stream cfg) (l : Label) (_ : Stream cfg) : Progress :=
  match l with
  | .writeDone =>
    match s.writer with
    | .writing _ res => ⟨p.chunks + 1, p.bytes + res.data.length⟩
    | _ => p
  | _ => p

def watched (cfg : StreamConfig) : Machine (Stream cfg × Progress) Label :=
  (machine cfg).observed ⟨0, 0⟩ Progress.after

variable {p : Progress}

theorem Progress.after_wrote {i : Nat} {res : ChunkResult} (h : s.writer = .writing i res) :
    p.after s .writeDone s' = ⟨p.chunks + 1, p.bytes + res.data.length⟩ := by
  simp only [Progress.after, h]

@[simp] theorem writer_offer (s : Stream cfg) (i : Nat) (res : ChunkResult) :
    (s.offer i res).writer = s.writer := by
  unfold offer; split <;> rfl

@[simp] theorem gates_offer (s : Stream cfg) (i : Nat) (res : ChunkResult) :
    (s.offer i res).gates = s.gates := by
  unfold offer; split <;> rfl

@[simp] theorem writer_storeRace (s : Stream cfg) (race : Race) :
    (s.storeRace race).writer = s.writer := by
  unfold storeRace; split <;> rfl

@[simp] theorem gates_storeRace (s : Stream cfg) (race : Race) :
    (s.storeRace race).gates = s.gates := by
  unfold storeRace; split <;> rfl

@[simp] theorem gates_afterReady (s : Stream cfg) (i : Nat) :
    (s.afterReady i).gates = s.gates := by
  unfold afterReady; split <;> rfl

structure Cursor (s : Stream cfg) (p : Progress) : Prop where
  pos_eq : s.Active → s.pos = p.chunks ∧ p.chunks < cfg.numChunks
  gates_iff : ∀ j, s.gates j = true ↔
    j < min cfg.prefetchAhead cfg.numChunks ∨ 0 < j ∧ j ≤ p.chunks ∧ j < cfg.numChunks

namespace Cursor

theorem init : Cursor (Stream.init cfg) ⟨0, 0⟩ where
  pos_eq ha := by
    obtain ⟨hlt, hw⟩ := active_loopHead (s := Stream.init cfg) (i := 0) rfl ha
    exact ⟨by simp [pos, hw], hlt⟩
  gates_iff j := by
    simp only [Stream.init, decide_eq_true_eq]
    omega

theorem congr (h : Cursor s p) (hw : s'.writer = s.writer) (hg : s'.gates = s.gates) :
    Cursor s' p where
  pos_eq ha := by
    simp only [Active, pos, hw] at ha ⊢
    exact h.pos_eq ha
  gates_iff := hg ▸ h.gates_iff

theorem stop (h : Cursor s p) (ha : ¬ s'.Active) (hg : s'.gates = s.gates) : Cursor s' p where
  pos_eq ha' := absurd ha' ha
  gates_iff := hg ▸ h.gates_iff

theorem afterReady (h : Cursor s p) {i : Nat} (hw : s.writer = .waitReady i) :
    Cursor (s.afterReady i) p where
  pos_eq ha := by
    have hpos := h.pos_eq (by simp [Active, hw])
    simp only [pos, hw] at hpos
    unfold Stream.afterReady at ha ⊢
    split
    · exact hpos
    · next hres => simp [Active, hres] at ha
    · next hres => simp [Active, hres] at ha
  gates_iff := by rw [gates_afterReady]; exact h.gates_iff

theorem afterWrite (h : Cursor s p) {i : Nat} {res : ChunkResult} (hw : s.writer = .writing i res) :
    Cursor (s.afterWrite i res) ⟨p.chunks + 1, p.bytes + res.data.length⟩ := by
  obtain ⟨rfl, hlt⟩ : i = p.chunks ∧ p.chunks < cfg.numChunks := by
    simpa only [pos, hw] using h.pos_eq (by simp [Active, hw])
  constructor
  case pos_eq =>
    intro ha
    obtain ⟨hlt', hw'⟩ := active_loopHead (i := p.chunks + 1) rfl ha
    exact ⟨by simp [pos, hw'], hlt'⟩
  case gates_iff =>
    intro j
    have hgates := h.gates_iff j
    by_cases hnext : p.chunks + 1 < cfg.numChunks
    · simp only [Stream.afterWrite, if_pos hnext]
      by_cases hj : j = p.chunks + 1
      · simp only [hj, Function.update_self, true_iff]
        omega
      · rw [Function.update_of_ne hj, hgates]
        omega
    · simp only [Stream.afterWrite, if_neg hnext]
      rw [hgates]
      omega

theorem step (h : Cursor s p) (hstep : s.step l = some s') : Cursor s' (p.after s l s') := by
  rcases move_or_race hstep with hm | ⟨r, race, rfl, -, -, -, rfl⟩
  · cases hm with
    | enter active lt gate => exact h.congr rfl rfl
    | fetched i res active pc held => exact h.congr (writer_offer ..) (gates_offer ..)
    | failed i exc active pc held => exact h.congr rfl rfl
    | rechecked i res active pc => exact h.congr (writer_offer ..) (gates_offer ..)
    | read i writer ready => exact h.afterReady writer
    | wrote i res writer =>
      rw [Progress.after_wrote writer]
      exact h.afterWrite writer
    | writeFailed i res writer => exact h.stop id rfl
    | cancelled active => exact h.stop id rfl
  · exact h.congr (writer_storeRace ..) (gates_storeRace ..)

theorem of_reach {ok : Stream cfg × Progress → Label → Prop} {sp : Stream cfg × Progress}
    (h : (watched cfg).Reach ok sp) : Cursor sp.1 sp.2 := by
  refine h.invariant (I := fun sp => Cursor sp.1 sp.2) init ?_
  intro sp l sp' hI _ hstep
  obtain ⟨hs, hp⟩ := Machine.step_of_observed hstep
  rw [hp]
  exact hI.step hs

end Cursor

/-- The gates of the chunks still to be written are set just as far as the window goes. -/
def Windowed (s : Stream cfg) (w : Nat) : Prop :=
  ∀ i, w ≤ i → i < cfg.numChunks →
    (s.gates (i - cfg.prefetchAhead) = true ↔ i ≤ w + cfg.prefetchAhead)

/-- The gates that are set from the start let no chunk in before its turn, and they let the first one in. -/
def WindowFits (cfg : StreamConfig) (w : Nat) : Prop :=
  (0 < cfg.prefetchAhead ∨ 0 < w ∨ cfg.numChunks = 0) ∧
    (cfg.prefetchAhead ≤ w + 1 ∨ cfg.numChunks ≤ w + cfg.prefetchAhead + 1)

theorem WindowFits.mono {w : Nat} (h : WindowFits cfg 0) : WindowFits cfg w := by
  unfold WindowFits at *
  omega

theorem Cursor.windowed_iff_fits (h : Cursor s p) : s.Windowed p.chunks ↔ WindowFits cfg p.chunks := by
  unfold Windowed WindowFits
  simp only [h.gates_iff]
  constructor
  · intro hwin
    constructor
    · -- the next chunk
      by_contra hnot
      have hnext := (hwin p.chunks le_rfl (by omega)).mpr (by omega)
      omega
    · -- the first chunk beyond the window
      by_contra hnot
      have hbeyond := (hwin (p.chunks + cfg.prefetchAhead + 1) (by omega) (by omega)).mp (by omega)
      omega
  · intro hfits i hi hlt
    omega

/-- A gate opens just in time in every state of every run if none is set for a chunk beyond the window
at the start, and the first one is set. -/
theorem windowed_iff (cfg : StreamConfig) :
    (∀ s p, (watched cfg).Reachable (s, p) → (s.Windowed p.chunks ↔ WindowFits cfg p.chunks)) ∧
      ((∀ s p, (watched cfg).Reachable (s, p) → s.Windowed p.chunks) ↔ WindowFits cfg 0) := by
  have hstate : ∀ s p, (watched cfg).Reachable (s, p) →
      (s.Windowed p.chunks ↔ WindowFits cfg p.chunks) :=
    fun s p h => (Cursor.of_reach h).windowed_iff_fits
  refine ⟨hstate, fun h => ?_, fun h s p hs => (hstate s p hs).mpr h.mono⟩
  exact (hstate _ _ .init).mp (h _ _ .init)

/-- With two chunks ahead chunk 3 may start before a byte is written. -/
theorem chunk_beyond_window : ¬ ∀ cfg : StreamConfig, cfg.race = false →
    ∀ s p, (watched cfg).Reachable (s, p) → s.Windowed p.chunks := by
  intro h
  have hwin := h ⟨4, 10, 2, 67108864, false⟩ rfl _ _ .init 3 (by decide) (by decide)
  exact absurd (hwin.mp rfl) (by decide)

end ProxySplit.Stream
