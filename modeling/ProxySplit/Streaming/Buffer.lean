import ProxySplit.Streaming.Cursor

namespace ProxySplit.Stream

open Lib Finset

variable {cfg : StreamConfig} {s s' : Stream cfg} {p : Progress} {l : Label}

/-- Which chunks have a result, and whose the bytes are that the write loop has released. -/
structure Ledger (s : Stream cfg) (p : Progress) : Prop where
  cursor : Cursor s p
  chunks_le : p.chunks ≤ cfg.numChunks
  gate : ∀ i, s.entered ≤ i → s.tasks i = .gate
  inside : ∀ i, s.tasks i ≠ .gate → s.tasks i ≠ .racing → i < cfg.numChunks
  empty : ∀ i, s.tasks i ≠ .done → s.results i = none
  released : ∀ i < p.chunks, ∃ res, s.results i = some (.ok res)
  writing : ∀ i res, s.writer = .writing i res → s.results i = some (.ok res)
  bytes_eq : p.bytes = ∑ i ∈ range p.chunks, size (s.results i)

namespace Ledger

theorem init : Ledger (Stream.init cfg) ⟨0, 0⟩ where
  cursor := .init
  chunks_le := Nat.zero_le _
  gate i hi := by
    simp only [Stream.init] at hi ⊢
    rw [if_neg]
    rintro ⟨hrace, rfl⟩
    simp [hrace] at hi
  inside i hgate hracing := by
    simp only [Stream.init] at hgate hracing
    split at hgate
    · next h => exact absurd (if_pos h) hracing
    · exact absurd rfl hgate
  empty _ _ := rfl
  released _ h := absurd h (Nat.not_lt_zero _)
  writing i res h := by
    simp only [Stream.init, loopHead] at h
    split at h <;> cases h
  bytes_eq := rfl

theorem lt_of_sem (h : Ledger s p) {i : Nat} (hgate : s.tasks i ≠ .gate) : i < s.entered := by
  by_contra hle
  exact hgate (h.gate i (not_lt.mp hle))

theorem le_of_none (h : Ledger s p) {i : Nat} (hnone : s.results i = none) : p.chunks ≤ i := by
  by_contra hlt
  obtain ⟨res, hres⟩ := h.released i (not_le.mp hlt)
  rw [hnone] at hres
  cases hres

theorem congr (h : Ledger s p) (hcursor : Cursor s' p) (hresults : s'.results = s.results)
    (hdone : ∀ i, s'.tasks i ≠ .done → s.tasks i ≠ .done)
    (hgate : ∀ i, s'.entered ≤ i → s'.tasks i = .gate)
    (hinside : ∀ i, s'.tasks i ≠ .gate → s'.tasks i ≠ .racing → i < cfg.numChunks)
    (hwriting : ∀ i res, s'.writer = .writing i res → s.results i = some (.ok res)) :
    Ledger s' p where
  cursor := hcursor
  chunks_le := h.chunks_le
  gate := hgate
  inside := hinside
  empty i hi := by rw [hresults]; exact h.empty i (hdone i hi)
  released := by rw [hresults]; exact h.released
  writing := by rw [hresults]; exact hwriting
  bytes_eq := by rw [hresults]; exact h.bytes_eq

theorem store (h : Ledger s p) {i : Nat} (hdone : s.tasks i ≠ .done) (hgate : s.tasks i ≠ .gate)
    (hlt : i < cfg.numChunks) {out : Fetched} (hcursor : Cursor s' p)
    (hresults : s'.results = Function.update s.results i (some out))
    (htasks : s'.tasks = Function.update s.tasks i .done) (hentered : s'.entered = s.entered)
    (hwriter : s'.writer = s.writer) : Ledger s' p := by
  have hnone := h.empty i hdone
  have hkept : ∀ {j out'}, s.results j = some out' → s'.results j = some out' := by
    intro j out' hj
    have hne : j ≠ i := by
      rintro rfl
      rw [hnone] at hj
      cases hj
    rw [hresults, Function.update_of_ne hne, hj]
  constructor
  case cursor => exact hcursor
  case chunks_le => exact h.chunks_le
  case gate =>
    intro j hj
    rw [hentered] at hj
    have hne : j ≠ i := by
      rintro rfl
      exact absurd (h.lt_of_sem hgate) (not_lt.mpr hj)
    rw [htasks, Function.update_of_ne hne]
    exact h.gate j hj
  case inside =>
    intro j hj hj'
    by_cases hne : j = i
    · rw [hne]; exact hlt
    · rw [htasks, Function.update_of_ne hne] at hj hj'
      exact h.inside j hj hj'
  case empty =>
    intro j hj
    by_cases hne : j = i
    · simp [htasks, hne] at hj
    · rw [htasks, Function.update_of_ne hne] at hj
      rw [hresults, Function.update_of_ne hne]
      exact h.empty j hj
  case released =>
    intro j hj
    obtain ⟨res, hres⟩ := h.released j hj
    exact ⟨res, hkept hres⟩
  case writing =>
    intro j res hj
    rw [hwriter] at hj
    exact hkept (h.writing j res hj)
  case bytes_eq =>
    rw [h.bytes_eq, hresults]
    refine sum_congr rfl fun j hj => ?_
    have hle := h.le_of_none hnone
    have hlt := mem_range.mp hj
    rw [Function.update_of_ne (by omega)]

theorem offer (h : Ledger s p) {i : Nat} (hdone : s.tasks i ≠ .done) (hgate : s.tasks i ≠ .gate)
    (hracing : s.tasks i ≠ .racing) (res : ChunkResult) : Ledger (s.offer i res) p := by
  have hlt := h.inside i hgate hracing
  unfold Stream.offer
  split
  · exact h.store hdone hgate hlt (h.cursor.congr rfl rfl) rfl rfl rfl rfl
  · refine h.congr (h.cursor.congr rfl rfl) rfl ?_ ?_ ?_ h.writing
    · intro j hj
      by_cases hne : j = i
      · rw [hne]; exact hdone
      · simpa only [Function.update_of_ne hne] using hj
    · intro j hj
      have hne : j ≠ i := by
        rintro rfl
        exact absurd (h.lt_of_sem hgate) (not_lt.mpr hj)
      simpa only [Function.update_of_ne hne] using h.gate j hj
    · intro j hj hj'
      by_cases hne : j = i
      · rw [hne]; exact hlt
      · simp only [Function.update_of_ne hne] at hj hj'
        exact h.inside j hj hj'

theorem enterTask (h : Ledger s p) (hlt : s.entered < cfg.numChunks) : Ledger s.enterTask p := by
  have hgate := h.gate s.entered le_rfl
  refine h.congr (h.cursor.congr rfl rfl) rfl ?_ ?_ ?_ h.writing
  · intro j hj
    by_cases hne : j = s.entered
    · simp [hne, hgate]
    · simpa only [Stream.enterTask, Function.update_of_ne hne] using hj
  · intro j hj
    have hlt : s.entered < j := hj
    simpa only [Stream.enterTask, Function.update_of_ne hlt.ne'] using h.gate j hlt.le
  · intro j hj hj'
    by_cases hne : j = s.entered
    · rwa [hne]
    · simp only [Stream.enterTask, Function.update_of_ne hne] at hj hj'
      exact h.inside j hj hj'

theorem afterReady (h : Ledger s p) {i : Nat} (hw : s.writer = .waitReady i) :
    Ledger (s.afterReady i) p := by
  have hcursor := h.cursor.afterReady hw
  unfold Stream.afterReady at hcursor ⊢
  split
  · next res hres =>
    simp only [hres] at hcursor
    refine h.congr hcursor rfl (fun _ hj => hj) h.gate h.inside fun j res' hj => ?_
    cases hj
    exact hres
  · next exc hres =>
    simp only [hres] at hcursor
    exact h.congr hcursor rfl (fun _ hj => hj) h.gate h.inside fun _ _ hj => by cases hj
  · next hres =>
    simp only [hres] at hcursor
    exact h.congr hcursor rfl (fun _ hj => hj) h.gate h.inside fun _ _ hj => by cases hj

theorem writing_eq (h : Ledger s p) {i : Nat} {res : ChunkResult} (hw : s.writer = .writing i res) :
    i = p.chunks ∧ p.chunks < cfg.numChunks ∧ s.results p.chunks = some (.ok res) := by
  obtain ⟨rfl, hlt⟩ : i = p.chunks ∧ p.chunks < cfg.numChunks := by
    simpa only [pos, hw] using h.cursor.pos_eq (by simp [Active, hw])
  exact ⟨rfl, hlt, h.writing _ _ hw⟩

theorem afterWrite (h : Ledger s p) {i : Nat} {res : ChunkResult} (hw : s.writer = .writing i res) :
    Ledger (s.afterWrite i res) ⟨p.chunks + 1, p.bytes + res.data.length⟩ := by
  obtain ⟨-, hlt, hres⟩ := h.writing_eq hw
  constructor
  case cursor => exact h.cursor.afterWrite hw
  case chunks_le => exact hlt
  case gate => exact fun j hj => wake_eq_gate.mpr (h.gate j hj)
  case inside =>
    exact fun j hj hj' => h.inside j (fun hg => hj (wake_eq_gate.mpr hg))
      fun hr => hj' (wake_eq_racing.mpr hr)
  case empty => exact fun j hj => h.empty j fun hd => hj (wake_eq_done.mpr hd)
  case released =>
    intro j hj
    rcases Nat.lt_succ_iff_lt_or_eq.mp hj with hj | rfl
    · exact h.released j hj
    · exact ⟨res, hres⟩
  case writing =>
    intro j res' hj
    simp only [Stream.afterWrite, loopHead] at hj
    split at hj <;> cases hj
  case bytes_eq =>
    change p.bytes + res.data.length = ∑ j ∈ range (p.chunks + 1), size (s.results j)
    rw [sum_range_succ, ← h.bytes_eq, hres]
    rfl

theorem storeRace (h : Ledger s p) (ha : s.Active) (hracing : s.tasks 0 = .racing) (race : Race) :
    Ledger (s.storeRace race) p := by
  have hlt : 0 < cfg.numChunks := (Nat.zero_le _).trans_lt (h.cursor.pos_eq ha).2
  unfold Stream.storeRace
  split
  · exact h.store (by simp [hracing]) (by simp [hracing]) hlt (h.cursor.congr rfl rfl) rfl rfl rfl rfl
  · exact h.congr (h.cursor.congr rfl rfl) rfl (fun _ hj => hj) h.gate h.inside h.writing

theorem step (h : Ledger s p) (hstep : s.step l = some s') : Ledger s' (p.after s l s') := by
  rcases move_or_race hstep with hm | ⟨r, race, rfl, ha, hracing, -, rfl⟩
  · cases hm with
    | enter active lt gate => exact h.enterTask lt
    | fetched i res active pc held => exact h.offer (by simp [pc]) (by simp [pc]) (by simp [pc]) res
    | failed i exc active pc held =>
      exact h.store (by simp [pc]) (by simp [pc]) (h.inside i (by simp [pc]) (by simp [pc]))
        (h.cursor.congr rfl rfl) rfl rfl rfl rfl
    | rechecked i res active pc => exact h.offer (by simp [pc]) (by simp [pc]) (by simp [pc]) res
    | read i writer ready => exact h.afterReady writer
    | wrote i res writer =>
      rw [Progress.after_wrote writer]
      exact h.afterWrite writer
    | writeFailed i res writer =>
      exact h.congr (h.cursor.stop id rfl) rfl (fun _ hj => hj) h.gate h.inside fun _ _ hj => by cases hj
    | cancelled active =>
      exact h.congr (h.cursor.stop id rfl) rfl (fun _ hj => hj) h.gate h.inside fun _ _ hj => by cases hj
  · exact h.storeRace ha hracing race

theorem of_reach {ok : Stream cfg × Progress → Label → Prop} {sp : Stream cfg × Progress}
    (h : (watched cfg).Reach ok sp) : Ledger sp.1 sp.2 := by
  refine h.invariant (I := fun sp => Ledger sp.1 sp.2) init ?_
  intro sp l sp' hI _ hstep
  obtain ⟨hs, hp⟩ := Machine.step_of_observed hstep
  rw [hp]
  exact hI.step hs

end Ledger

def unreleased (s : Stream cfg) (p : Progress) : Nat :=
  ∑ i ∈ Ico p.chunks cfg.numChunks, size (s.results i)

/-- `_buf_bytes` is the number of stored bytes still to be released, and a release takes off no more than
there is. -/
structure Accounted (s : Stream cfg) (p : Progress) : Prop where
  bufBytes_eq : s.bufBytes = s.unreleased p
  unclamped : ∀ i res, s.writer = .writing i res → res.data.length ≤ s.bufBytes

/-- The race stores no data, which it does not charge for. -/
def Charged (s : Stream cfg) : Label → Prop
  | .race r => ∀ race res, s.race.step r = some race → race.pc = .stored (.ok res) → res.data = []
  | _ => True

theorem charged_of_move (hm : Move s l s') : s.Charged l := by
  cases hm <;> trivial

namespace Ledger

theorem accounted (h : Ledger s p) (heq : s.bufBytes = s.unreleased p) : Accounted s p where
  bufBytes_eq := heq
  unclamped i res hw := by
    obtain ⟨-, hlt, hres⟩ := h.writing_eq hw
    rw [heq, unreleased, sum_eq_sum_Ico_succ_bot hlt, hres]
    exact Nat.le_add_right ..

theorem unreleased_store (h : Ledger s p) {i : Nat} (hdone : s.tasks i ≠ .done)
    (hlt : i < cfg.numChunks) {out : Fetched}
    (hresults : s'.results = Function.update s.results i (some out)) :
    s'.unreleased p = s.unreleased p + size (some out) := by
  have hnone := h.empty i hdone
  rw [unreleased, hresults]
  exact sum_size_update (mem_Ico.mpr ⟨h.le_of_none hnone, hlt⟩) hnone out

theorem bufBytes_offer (h : Ledger s p) (heq : s.bufBytes = s.unreleased p) {i : Nat}
    (hdone : s.tasks i ≠ .done) (hlt : i < cfg.numChunks) (res : ChunkResult) :
    (s.offer i res).bufBytes = (s.offer i res).unreleased p := by
  unfold Stream.offer
  split
  · rw [h.unreleased_store hdone hlt rfl, ← heq]
    rfl
  · exact heq

theorem unreleased_afterWrite (h : Ledger s p) {i : Nat} {res : ChunkResult}
    (hw : s.writer = .writing i res) : s.unreleased p = res.data.length +
      (s.afterWrite i res).unreleased ⟨p.chunks + 1, p.bytes + res.data.length⟩ := by
  obtain ⟨-, hlt, hres⟩ := h.writing_eq hw
  rw [unreleased, sum_eq_sum_Ico_succ_bot hlt, hres]
  rfl

theorem bufBytes_move (h : Ledger s p) (heq : s.bufBytes = s.unreleased p) (hm : Move s l s') :
    s'.bufBytes = s'.unreleased (p.after s l s') := by
  have hinside : ∀ i, s.tasks i ≠ .gate → s.tasks i ≠ .racing → i < cfg.numChunks := h.inside
  cases hm with
  | enter active lt gate => exact heq
  | fetched i res active pc held =>
    exact h.bufBytes_offer heq (by simp [pc]) (hinside i (by simp [pc]) (by simp [pc])) res
  | failed i exc active pc held =>
    have hstore : (s.finishTask i (.error exc)).unreleased p =
        s.unreleased p + size (some (.error exc)) :=
      h.unreleased_store (by simp [pc]) (hinside i (by simp [pc]) (by simp [pc])) rfl
    exact heq.trans hstore.symm
  | rechecked i res active pc =>
    exact h.bufBytes_offer heq (by simp [pc]) (hinside i (by simp [pc]) (by simp [pc])) res
  | read i writer ready =>
    unfold Stream.afterReady
    split <;> exact heq
  | wrote i res writer =>
    rw [Progress.after_wrote writer]
    change s.bufBytes - res.data.length = _
    rw [heq, h.unreleased_afterWrite writer, Nat.add_sub_cancel_left]
  | writeFailed i res writer => exact heq
  | cancelled active => exact heq

theorem bufBytes_storeRace (h : Ledger s p) (heq : s.bufBytes = s.unreleased p) (ha : s.Active)
    (hracing : s.tasks 0 = .racing) (race : Race) :
    (s.storeRace race).bufBytes = (s.storeRace race).unreleased p ↔
      ∀ res, race.pc = .stored (.ok res) → res.data = [] := by
  have hlt : 0 < cfg.numChunks := (Nat.zero_le _).trans_lt (h.cursor.pos_eq ha).2
  unfold Stream.storeRace
  split
  · next out hpc =>
    rw [h.unreleased_store (by simp [hracing]) hlt rfl]
    change s.bufBytes = s.unreleased p + size (some out) ↔ _
    rw [← heq]
    cases out with
    | ok res => simp [size, hpc]
    | error exc => simp [size, hpc]
  · next hpc => exact iff_of_true heq fun res hres => absurd hres (hpc _)

theorem accounted_step (h : Ledger s p) (hacc : Accounted s p) (hstep : s.step l = some s') :
    Accounted s' (p.after s l s') ↔ s.Charged l := by
  have hnext := h.step hstep
  have heq : Accounted s' (p.after s l s') ↔ s'.bufBytes = s'.unreleased (p.after s l s') :=
    ⟨fun hacc' => hacc'.bufBytes_eq, hnext.accounted⟩
  rw [heq]
  rcases move_or_race hstep with hm | ⟨r, race, rfl, ha, hracing, hrace, rfl⟩
  · exact iff_of_true (h.bufBytes_move hacc.bufBytes_eq hm) (charged_of_move hm)
  · refine (h.bufBytes_storeRace hacc.bufBytes_eq ha hracing race).trans ⟨?_, ?_⟩
    · intro hdata race' res hrace' hpc
      rw [hrace] at hrace'
      cases hrace'
      exact hdata res hpc
    · exact fun hcharged res hpc => hcharged race res hrace hpc

end Ledger

theorem accounted_init : Accounted (init cfg) ⟨0, 0⟩ := by
  refine Ledger.init.accounted ?_
  simp [unreleased, init, size]

theorem accounted_of_reach {sp : Stream cfg × Progress}
    (h : (watched cfg).Reach (fun sp l => sp.1.Charged l) sp) : Accounted sp.1 sp.2 := by
  have hboth : Ledger sp.1 sp.2 ∧ Accounted sp.1 sp.2 := by
    refine h.invariant (I := fun sp => Ledger sp.1 sp.2 ∧ Accounted sp.1 sp.2)
      ⟨.init, accounted_init⟩ ?_
    rintro sp l sp' ⟨hL, hacc⟩ hok hstep
    obtain ⟨hs, hp⟩ := Machine.step_of_observed hstep
    rw [hp]
    exact ⟨hL.step hs, (hL.accounted_step hacc hs).mpr hok⟩
  exact hboth.2

theorem charged_of_reachable (hrace : cfg.race = false) {sp : Stream cfg × Progress}
    (h : (watched cfg).Reachable sp) : (watched cfg).Reach (fun sp l => sp.1.Charged l) sp := by
  induction h with
  | init => exact .init
  | @step sp l sp' hsp _ hstep ih =>
    refine .step ih ?_ hstep
    have hracing : sp.1.tasks 0 ≠ .racing := not_racing hrace (Machine.Reach.of_observed hsp)
    exact charged_of_move (move_of_step (Machine.step_of_observed hstep).1 hracing)

/-- Without a race the buffer is always accounted for.  With one it is until the race stores data. -/
theorem accounted_iff (cfg : StreamConfig) :
    (cfg.race = false → ∀ s p, (watched cfg).Reachable (s, p) → Accounted s p) ∧
      ∀ s p, (watched cfg).Reach (fun sp l => sp.1.Charged l) (s, p) → Accounted s p ∧
        ∀ l s', s.step l = some s' → (Accounted s' (p.after s l s') ↔ s.Charged l) := by
  refine ⟨fun hrace s p h => accounted_of_reach (charged_of_reachable hrace h), fun s p h => ?_⟩
  have hacc := accounted_of_reach h
  exact ⟨hacc, fun l s' hstep => (Ledger.of_reach h).accounted_step hacc hstep⟩

theorem accounted_while_writing :
    (∃ (s : Stream ⟨1, 1, 1, 8, false⟩) (p : Progress), Accounted s p ∧
      s.writer = .writing 0 (Race.chunkZero "http://10.0.0.1:8080")) ∧
    Accounted (init ⟨1, 1, 1, 8, true⟩) ⟨0, 0⟩ := by
  constructor
  · have hrun : ∃ sp, (watched ⟨1, 1, 1, 8, false⟩).Reachable sp ∧
        sp.1.writer = .writing 0 (Race.chunkZero "http://10.0.0.1:8080") :=
      Machine.exists_reachable
        [.enter, .fetchReturn 0 (.ok (Race.chunkZero "http://10.0.0.1:8080")), .writerWake]
        (by decide +kernel)
    obtain ⟨⟨s, p⟩, hs, hw⟩ := hrun
    exact ⟨s, p, (accounted_iff _).1 rfl s p hs, hw⟩
  · exact ((accounted_iff _).2 _ _ .init).1

/-- One candidate of the race times out and the other brings the chunk. -/
theorem raced_chunk_not_charged : ¬ ∀ (cfg : StreamConfig) (s : Stream cfg) (p : Progress),
    (watched cfg).Reachable (s, p) → Accounted s p := by
  intro h
  have hrun : ∃ sp, (watched ⟨1, 1, 1, 8, true⟩).Reachable sp ∧
      sp.1.bufBytes = 0 ∧ sp.1.unreleased sp.2 = 2 :=
    Machine.exists_reachable
      [.race (.finish .b (.error .timeout)), .race (.wake .b),
        .race (.finish .a (.ok (Race.chunkZero "http://10.0.0.1:8080"))), .race (.wake .a)]
      (by decide +kernel)
  obtain ⟨⟨s, p⟩, hs, hbuf, hstored⟩ := hrun
  have heq := (h _ s p hs).bufBytes_eq
  rw [hbuf, hstored] at heq
  cases heq

section Cap

/-- The bytes of all that is in `results`. -/
def held (s : Stream cfg) : Nat := ∑ i ∈ range cfg.numChunks, size (s.results i)

def offered (s : Stream cfg) : Label → Option ChunkResult
  | .fetchReturn _ (.ok res) => some res
  | .recheck i =>
    match s.tasks i with
    | .recheck res => some res
    | _ => none
  | _ => none

/-- What the buffer has room for also finds room beside the bytes that were released. -/
def Fits (s : Stream cfg) (p : Progress) (l : Label) : Prop :=
  ∀ res ∈ s.offered l, s.bufBytes + res.data.length ≤ cfg.maxBufferBytes →
    p.bytes + (s.bufBytes + res.data.length) ≤ cfg.maxBufferBytes

instance (s : Stream cfg) (p : Progress) (l : Label) : Decidable (s.Fits p l) :=
  inferInstanceAs (Decidable (∀ res ∈ s.offered l, _ → _))

theorem Ledger.held_eq (h : Ledger s p) : s.held = p.bytes + s.unreleased p := by
  rw [held, h.bytes_eq, unreleased, sum_range_add_sum_Ico _ h.chunks_le]

theorem bufBytes_offer (s : Stream cfg) (i : Nat) (res : ChunkResult) : (s.offer i res).bufBytes =
    if s.bufBytes + res.data.length ≤ cfg.maxBufferBytes then s.bufBytes + res.data.length
    else s.bufBytes := by
  unfold offer
  split <;> rfl

@[simp] theorem bufBytes_afterReady (s : Stream cfg) (i : Nat) :
    (s.afterReady i).bufBytes = s.bufBytes := by
  unfold afterReady
  split <;> rfl

theorem bufBytes_offer_le (hle : s.bufBytes ≤ cfg.maxBufferBytes) (i : Nat) (res : ChunkResult) :
    (s.offer i res).bufBytes ≤ cfg.maxBufferBytes := by
  rw [bufBytes_offer]
  split
  · assumption
  · exact hle

theorem bufBytes_le_step (hle : s.bufBytes ≤ cfg.maxBufferBytes) (h : s.step l = some s') :
    s'.bufBytes ≤ cfg.maxBufferBytes := by
  rcases move_or_race h with hm | ⟨r, race, rfl, -, -, -, rfl⟩
  · cases hm with
    | enter active lt gate => exact hle
    | fetched i res active pc held => exact bufBytes_offer_le hle i res
    | failed i exc active pc held => exact hle
    | rechecked i res active pc => exact bufBytes_offer_le hle i res
    | read i writer ready => rwa [bufBytes_afterReady]
    | wrote i res writer => exact (Nat.sub_le ..).trans hle
    | writeFailed i res writer => exact hle
    | cancelled active => exact hle
  · unfold storeRace
    split <;> exact hle

theorem bufBytes_le_of_reach {ok : Stream cfg × Progress → Label → Prop} {sp : Stream cfg × Progress}
    (h : (watched cfg).Reach ok sp) : sp.1.bufBytes ≤ cfg.maxBufferBytes :=
  h.invariant (I := fun sp => sp.1.bufBytes ≤ cfg.maxBufferBytes) (Nat.zero_le _)
    fun _ _ _ hI _ hstep => bufBytes_le_step hI (Machine.step_of_observed hstep).1

theorem fits_offer_iff (hle : p.bytes + s.bufBytes ≤ cfg.maxBufferBytes) (i : Nat)
    {res : ChunkResult} (h : s.offered l = some res) :
    p.bytes + (s.offer i res).bufBytes ≤ cfg.maxBufferBytes ↔ s.Fits p l := by
  simp only [Fits, h, Option.mem_some_iff, forall_eq', bufBytes_offer]
  split
  · next hfit => simp [hfit]
  · next hfull => exact iff_of_true hle fun hfit => absurd hfit hfull

theorem fits_move_iff (hacc : Accounted s p) (hle : p.bytes + s.bufBytes ≤ cfg.maxBufferBytes)
    (hm : Move s l s') :
    (p.after s l s').bytes + s'.bufBytes ≤ cfg.maxBufferBytes ↔ s.Fits p l := by
  have hnone : s.offered l = none → s.Fits p l := fun h res hres => by simp [h] at hres
  cases hm with
  | enter active lt gate => exact iff_of_true hle (hnone rfl)
  | fetched i res active pc held => exact fits_offer_iff hle i rfl
  | failed i exc active pc held => exact iff_of_true hle (hnone rfl)
  | rechecked i res active pc => exact fits_offer_iff hle i (by simp [offered, pc])
  | read i writer ready =>
    rw [bufBytes_afterReady]
    exact iff_of_true hle (hnone rfl)
  | wrote i res writer =>
    rw [Progress.after_wrote writer]
    have hunclamped := hacc.unclamped i res writer
    refine iff_of_true ?_ (hnone rfl)
    change p.bytes + res.data.length + (s.bufBytes - res.data.length) ≤ cfg.maxBufferBytes
    omega
  | writeFailed i res writer => exact iff_of_true hle (hnone rfl)
  | cancelled active => exact iff_of_true hle (hnone rfl)

theorem held_of_reachable (hrace : cfg.race = false) (h : (watched cfg).Reachable (s, p)) :
    s.held = p.bytes + s.bufBytes := by
  rw [(Ledger.of_reach h).held_eq, (accounted_of_reach (charged_of_reachable hrace h)).bufBytes_eq]

theorem held_step_iff (hrace : cfg.race = false) (h : (watched cfg).Reachable (s, p))
    (hle : s.held ≤ cfg.maxBufferBytes) (hstep : s.step l = some s') :
    s'.held ≤ cfg.maxBufferBytes ↔ s.Fits p l := by
  have hnext : (watched cfg).Reachable (s', p.after s l s') :=
    .step h trivial (Machine.observed_step hstep)
  rw [held_of_reachable hrace hnext]
  rw [held_of_reachable hrace h] at hle
  have hacc : Accounted s p := accounted_of_reach (charged_of_reachable hrace h)
  have hs : (machine cfg).Reachable s := Machine.Reach.of_observed (p := (s, p)) h
  exact fits_move_iff hacc hle (move_of_step hstep (not_racing hrace hs))

theorem held_of_reach (hrace : cfg.race = false)
    (h : (watched cfg).Reach (fun sp l => sp.1.Fits sp.2 l) (s, p)) : s.held ≤ cfg.maxBufferBytes := by
  have hboth : (watched cfg).Reachable (s, p) ∧ s.held ≤ cfg.maxBufferBytes := by
    refine h.invariant (I := fun sp => (watched cfg).Reachable sp ∧ sp.1.held ≤ cfg.maxBufferBytes)
      ⟨.init, ?_⟩ ?_
    · simp [held, watched, Machine.observed, machine, init, size]
    · rintro ⟨s, p⟩ l ⟨s', p'⟩ ⟨hs, hle⟩ hok hstep
      exact ⟨.step hs trivial hstep,
        (held_step_iff hrace hs hle (Machine.step_of_observed hstep).1).mpr hok⟩
  exact hboth.2

/-- What a stream holds is what the buffer counts and all that was released.  It stays below the cap as long
as every chunk that the buffer takes fits in beside the released ones, and no longer. -/
theorem capped_iff (cfg : StreamConfig) (hrace : cfg.race = false) :
    (∀ s p, (watched cfg).Reachable (s, p) →
      s.held = p.bytes + s.bufBytes ∧ s.bufBytes ≤ cfg.maxBufferBytes) ∧
    ∀ s p, (watched cfg).Reach (fun sp l => sp.1.Fits sp.2 l) (s, p) →
      s.held ≤ cfg.maxBufferBytes ∧
        ∀ l s', s.step l = some s' → (s'.held ≤ cfg.maxBufferBytes ↔ s.Fits p l) := by
  refine ⟨fun s p h => ⟨held_of_reachable hrace h, bufBytes_le_of_reach h⟩, fun s p h => ?_⟩
  have hle := held_of_reach hrace h
  exact ⟨hle, fun l s' hstep => held_step_iff hrace h.reachable hle hstep⟩

theorem capped_two_chunks : ∃ (s : Stream ⟨2, 1, 1, 4, false⟩) (p : Progress),
    s.held ≤ 4 ∧ s.held = 4 ∧ p.chunks = 1 := by
  have hrun : ∃ sp, (watched ⟨2, 1, 1, 4, false⟩).Reach (fun sp l => sp.1.Fits sp.2 l) sp ∧
      sp.1.held = 4 ∧ sp.2.chunks = 1 :=
    Machine.exists_reach_if
      [.enter, .fetchReturn 0 (.ok (Race.chunkZero "http://10.0.0.1:8080")), .writerWake, .writeDone,
        .enter, .fetchReturn 1 (.ok ⟨1, [2, 3], 206, "http://10.0.0.2:8080"⟩)]
      (by decide +kernel)
  obtain ⟨⟨s, p⟩, hs, hheld⟩ := hrun
  exact ⟨s, p, ((capped_iff _ rfl).2 s p hs).1, hheld⟩

/-- The first of two chunks stays in `results` when it has been written. -/
theorem written_chunk_held : ¬ ∀ cfg : StreamConfig, cfg.race = false →
    ∀ s p, (watched cfg).Reachable (s, p) → s.held ≤ cfg.maxBufferBytes := by
  intro h
  have hrun : ∃ sp, (watched ⟨2, 1, 1, 2, false⟩).Reachable sp ∧ sp.1.held = 4 :=
    Machine.exists_reachable
      [.enter, .fetchReturn 0 (.ok (Race.chunkZero "http://10.0.0.1:8080")), .writerWake, .writeDone,
        .enter, .fetchReturn 1 (.ok ⟨1, [2, 3], 206, "http://10.0.0.2:8080"⟩)]
      (by decide +kernel)
  obtain ⟨⟨s, p⟩, hs, hheld⟩ := hrun
  have hle := h _ rfl s p hs
  rw [hheld] at hle
  exact absurd hle (by decide)

end Cap

end ProxySplit.Stream
