import ProxySplit.CacheTier

namespace ProxySplit

open Lib

/-- The disk cache on its host, with the time that has really passed and the times at which the rows
were stored. -/
structure DiskHost where
  cache : DiskCache
  monotonic : ℚ
  time : ℚ
  stored : Url → ℚ

inductive HostLabel
  | put (url : Url) (r : Cached) (wall : ℚ)
  | get (url : Url)
  | elapse (d : ℚ)
  | restart
  | reboot (down monotonic : ℚ)

namespace DiskHost

def clock (s : DiskHost) : Clock := ⟨s.monotonic, s.time⟩

def later (s : DiskHost) (d : ℚ) : DiskHost :=
  { s with monotonic := s.monotonic + d, time := s.time + d }

/-- The database file outlives the process and the host.  The monotonic clock outlives the process
only. -/
def step (s : DiskHost) : HostLabel → Option DiskHost
  | .put url r wall => some { s with
      cache := s.cache.put ⟨s.monotonic, wall⟩ url r
      stored := fun u => if u = url ∧ s.cache.accepts r then s.time else s.stored u }
  | .get url => some { s with cache := (s.cache.get s.clock url).1 }
  | .elapse d => if 0 ≤ d then some (s.later d) else none
  | .restart => some s
  | .reboot down monotonic =>
    if 0 ≤ down then some { s with monotonic := monotonic, time := s.time + down } else none

def machine (c : DiskCache) (monotonic : ℚ) : Machine DiskHost HostLabel :=
  ⟨⟨c.clear, monotonic, 0, fun _ => 0⟩, step⟩

def due (s : DiskHost) (url : Url) (w : Held) : PyFloat :=
  (ttlOf w.cached.headers s.cache.defaultTtl).addTo (s.stored url)

/-- A lookup returns what is held for its time to live, and drops it after that. -/
def Timely (s : DiskHost) : Prop :=
  ∀ url w, s.cache.held url = some w →
    ((s.cache.get s.clock url).2 = some w.cached ↔ (s.due url w).lt s.time = false)

/-- A reboot leaves the clock as if it had gone on, or finds nothing that the clocks would expire at
different times. -/
def ClockKept (s : DiskHost) : HostLabel → Prop
  | .reboot down monotonic => ∀ url w, s.cache.held url = some w →
      monotonic = s.monotonic + down ∨ w.expires = .inf ∨
        w.expires.lt monotonic = true ∧ w.expires.lt (s.monotonic + down) = true
  | _ => True

inductive InStep (monotonic time : ℚ) : PyFloat → PyFloat → Prop
  | never : InStep monotonic time .inf .inf
  | ahead {q : ℚ} : InStep monotonic time (.fin (monotonic + q)) (.fin (time + q))
  | past {e d : ℚ} : e < monotonic → d < time → InStep monotonic time (.fin e) (.fin d)

def Inv (s : DiskHost) : Prop :=
  ∀ url w, s.cache.held url = some w → InStep s.monotonic s.time w.expires (s.due url w)

section InStep

variable {monotonic time : ℚ} {x y : PyFloat}

theorem InStep.lt_eq (h : InStep monotonic time x y) : x.lt monotonic = y.lt time := by
  cases h with
  | never => rfl
  | ahead => simp [PyFloat.lt]
  | past he hd => simp [PyFloat.lt, he, hd]

theorem InStep.later (h : InStep monotonic time x y) {d : ℚ} (hd : 0 ≤ d) :
    InStep (monotonic + d) (time + d) x y := by
  cases h with
  | never => exact .never
  | @ahead q =>
    have hx : monotonic + q = monotonic + d + (q - d) := by linarith
    have hy : time + q = time + d + (q - d) := by linarith
    rw [hx, hy]
    exact .ahead
  | past he hd' => exact .past (by linarith) (by linarith)

theorem InStep.reboot (h : InStep monotonic time x y) {down m : ℚ} (hdown : 0 ≤ down)
    (hok : m = monotonic + down ∨ x = .inf ∨ x.lt m = true ∧ x.lt (monotonic + down) = true) :
    InStep m (time + down) x y := by
  have hlater := h.later hdown
  rcases hok with rfl | rfl | ⟨hm, hold⟩
  · exact hlater
  · cases h with
    | never => exact .never
  · have hy : y.lt (time + down) = true := hlater.lt_eq.symm.trans hold
    cases h with
    | never => cases hm
    | ahead | past => exact .past (of_decide_eq_true hm) (of_decide_eq_true hy)

theorem InStep.exists_apart (h : InStep monotonic time x y) {down m : ℚ} (hdown : 0 ≤ down)
    (hbad : ¬ (m = monotonic + down ∨ x = .inf ∨ x.lt m = true ∧ x.lt (monotonic + down) = true)) :
    ∃ d, 0 ≤ d ∧ x.lt (m + d) ≠ y.lt (time + down + d) := by
  rw [not_or, not_or, not_and] at hbad
  obtain ⟨hne, hinf, hnot⟩ := hbad
  cases h with
  | never => exact absurd rfl hinf
  | @ahead q =>
    rcases lt_or_gt_of_ne hne with hlt | hgt
    · have hle : m ≤ monotonic + q := by
        by_contra hm
        refine hnot (decide_eq_true (not_le.mp hm)) (decide_eq_true ?_)
        linarith
      refine ⟨monotonic + q - m, by linarith, ?_⟩
      have hx : (PyFloat.fin (monotonic + q)).lt (m + (monotonic + q - m)) = false :=
        decide_eq_false (by linarith)
      have hy : (PyFloat.fin (time + q)).lt (time + down + (monotonic + q - m)) = true :=
        decide_eq_true (by linarith)
      rw [hx, hy]
      exact Bool.false_ne_true
    · have hle : down ≤ q := by
        by_contra hq
        refine hnot (decide_eq_true ?_) (decide_eq_true ?_)
        · linarith
        · linarith
      refine ⟨q - down, by linarith, ?_⟩
      have hx : (PyFloat.fin (monotonic + q)).lt (m + (q - down)) = true :=
        decide_eq_true (by linarith)
      have hy : (PyFloat.fin (time + q)).lt (time + down + (q - down)) = false :=
        decide_eq_false (by linarith)
      rw [hx, hy]
      exact Bool.false_ne_true.symm
  | @past e d he hd =>
    refine ⟨0, le_rfl, ?_⟩
    have hx : (PyFloat.fin e).lt (m + 0) = false := by
      refine decide_eq_false fun hm => hnot (decide_eq_true ?_) (decide_eq_true ?_)
      · linarith
      · linarith
    have hy : (PyFloat.fin d).lt (time + down + 0) = true := decide_eq_true (by linarith)
    rw [hx, hy]
    exact Bool.false_ne_true

end InStep

section Step

variable {s s' : DiskHost} {l : HostLabel}

theorem Inv.timely (h : s.Inv) : s.Timely := by
  intro url w hw
  rw [← (h url w hw).lt_eq, DiskCache.hit_iff]
  constructor
  · rintro ⟨w', hw', hlive, -⟩
    obtain rfl := Option.some.inj (hw.symm.trans hw')
    rwa [Held.live, Bool.not_eq_true'] at hlive
  · intro hlt
    exact ⟨w, hw, by rw [Held.live, clock, hlt]; rfl, rfl⟩

theorem Inv.later (h : s.Inv) {d : ℚ} (hd : 0 ≤ d) : (s.later d).Inv :=
  fun url w hw => (h url w hw).later hd

theorem inStep_put {c : DiskCache} {monotonic time wall : ℚ} {r : Cached} (h : c.accepts r = true) :
    InStep monotonic time (Held.of c.defaultTtl ⟨monotonic, wall⟩ r).expires
      ((ttlOf r.headers c.defaultTtl).addTo time) := by
  simp only [DiskCache.accepts, Bool.decide_and, Bool.and_eq_true, decide_eq_true_eq] at h
  obtain ⟨-, -, hpos, hnan⟩ := h
  simp only [Held.of]
  cases httl : ttlOf r.headers c.defaultTtl with
  | nan => exact absurd httl hnan
  | negInf => exact absurd (by rw [httl]; rfl) hpos
  | fin q => exact .ahead
  | inf => exact .never

theorem Inv.step (h : s.Inv) (hok : s.ClockKept l) (hs : s.step l = some s') : s'.Inv := by
  cases l with
  | put url r wall =>
    cases hs
    intro u w hw
    simp only [due, DiskCache.defaultTtl_put]
    rcases DiskCache.held_put hw with ⟨hacc, rfl, rfl⟩ | ⟨hne, hold⟩
    · simp only [hacc, and_self, if_true]
      exact inStep_put hacc
    · rw [if_neg fun hnew => hne hnew.2 hnew.1]
      exact h u w hold
  | get url =>
    cases hs
    intro u w hw
    simp only [due, DiskCache.defaultTtl_get]
    exact h u w (DiskCache.held_get hw)
  | elapse d =>
    simp only [DiskHost.step] at hs
    split at hs
    · next hd =>
      cases hs
      exact h.later hd
    · cases hs
  | restart =>
    cases hs
    exact h
  | reboot down monotonic =>
    simp only [DiskHost.step] at hs
    split at hs
    · next hdown =>
      cases hs
      exact fun u w hw => (h u w hw).reboot hdown (hok u w hw)
    · cases hs

theorem Inv.init {c : DiskCache} {monotonic : ℚ} : (machine c monotonic).init.Inv := by
  intro url w hw
  cases hw

theorem Inv.clockKept (h : s.Inv) (hs : s.step l = some s')
    (htimely : ∀ d, 0 ≤ d → (s'.later d).Timely) : s.ClockKept l := by
  cases l with
  | reboot down monotonic =>
    intro url w hw
    by_contra hbad
    simp only [DiskHost.step] at hs
    split at hs
    · next hdown =>
      cases hs
      obtain ⟨d, hd, hapart⟩ := (h url w hw).exists_apart hdown hbad
      have hanswer := htimely d hd url w hw
      rw [DiskCache.hit_iff] at hanswer
      apply hapart
      cases hlt : (s.due url w).lt (s.time + down + d) with
      | false =>
        obtain ⟨w', hw', hlive, -⟩ := hanswer.mpr hlt
        obtain rfl := Option.some.inj (hw.symm.trans hw')
        rwa [Held.live, Bool.not_eq_true'] at hlive
      | true =>
        by_contra hlive
        have hdue := hanswer.mp ⟨w, hw, by
          rw [Held.live, Bool.not_eq_true']; exact Bool.eq_false_of_not_eq_true hlive, rfl⟩
        exact absurd (hdue.symm.trans hlt) Bool.false_ne_true
    · cases hs
  | put | get | elapse | restart => trivial

end Step

/-- Rows are returned for their time to live and dropped after it, as long as no reboot sets the clock
in a way that matters to a row, and only as long as that. -/
theorem timely_iff (c : DiskCache) (monotonic : ℚ) (s : DiskHost)
    (hs : (machine c monotonic).Reach ClockKept s) :
    s.Timely ∧ ∀ l s', s.step l = some s' →
      (s.ClockKept l ↔ ∀ d, 0 ≤ d → (s'.later d).Timely) := by
  have hinv : s.Inv := hs.invariant Inv.init fun _ _ _ h hok hstep => h.step hok hstep
  refine ⟨hinv.timely, ?_⟩
  intro l s' hstep
  constructor
  · exact fun hok d hd => ((hinv.step hok hstep).later hd).timely
  · exact hinv.clockKept hstep

theorem timely_after_restart : ∃ s : DiskHost,
    (s.cache.get s.clock "u").2 = some firstVersion ∧ s.Timely := by
  have hkept : ClockKept (machine smallL2 5000).init (.reboot 30 0) := by
    intro url w hw
    cases hw
  have hboot := Machine.Reach.step .init hkept rfl
  have hlabels : ∀ l ∈ [HostLabel.put "u" firstVersion 0, .restart, .elapse 86400],
      ∀ s, ClockKept s l := by
    intro l hl s
    simp only [List.mem_cons, List.not_mem_nil, or_false] at hl
    rcases hl with rfl | rfl | rfl
    · trivial
    · trivial
    · trivial
  obtain ⟨s, hs, hget⟩ := hboot.exists_run
    (P := fun s => (s.cache.get s.clock "u").2 = some firstVersion) _ hlabels (by decide +kernel)
  exact ⟨s, hget, (timely_iff smallL2 5000 s hs).1⟩

/-- The clock of the new boot is far behind, and the row is returned on and on. -/
theorem returned_after_reboot : ¬ ∀ c monotonic s, (machine c monotonic).Reachable s → s.Timely := by
  intro hall
  have hrun : ∃ s, (machine smallL2 1000000).Reachable s ∧
      (s.cache.held "u" = some ⟨firstVersion, .fin 1086400⟩ ∧
        (s.cache.get s.clock "u").2 = some firstVersion ∧
        (s.due "u" ⟨firstVersion, .fin 1086400⟩).lt s.time = true) :=
    Machine.exists_reachable [.put "u" firstVersion 0, .reboot 30 0, .elapse 1000000]
      (by decide +kernel)
  obtain ⟨s, hs, hheld, hget, hdue⟩ := hrun
  have hlate := (hall smallL2 1000000 s hs "u" _ hheld).mp hget
  exact absurd (hdue.symm.trans hlate) Bool.false_ne_true.symm

end DiskHost

end ProxySplit
