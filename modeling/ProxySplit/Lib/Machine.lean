universe u v w

namespace ProxySplit.Lib

/-- A machine with a partial step: `none` says that the label is not enabled. -/
structure Machine (σ : Type u) (ℓ : Type v) where
  init : σ
  step : σ → ℓ → Option σ

namespace Machine

variable {σ : Type u} {ℓ : Type v} {M : Machine σ ℓ}

/-- The states that runs reach when every step they take satisfies `ok`. -/
inductive Reach (M : Machine σ ℓ) (ok : σ → ℓ → Prop) : σ → Prop
  | init : Reach M ok M.init
  | step {s l s'} : Reach M ok s → ok s l → M.step s l = some s' → Reach M ok s'

abbrev Reachable (M : Machine σ ℓ) : σ → Prop := Reach M (fun _ _ => True)

def Enabled (M : Machine σ ℓ) (s : σ) (l : ℓ) : Prop := (M.step s l).isSome

instance (s : σ) (l : ℓ) : Decidable (M.Enabled s l) := inferInstanceAs (Decidable (_ = true))

def run (M : Machine σ ℓ) : σ → List ℓ → Option σ
  | s, [] => some s
  | s, l :: ls => (M.step s l).bind fun s' => run M s' ls

theorem run_append {s t u : σ} {ls ls' : List ℓ} (h : M.run s ls = some t) (h' : M.run t ls' = some u) :
    M.run s (ls ++ ls') = some u := by
  induction ls generalizing s with
  | nil =>
    cases h
    exact h'
  | cons l ls ih =>
    obtain ⟨r, hr, hrest⟩ := Option.bind_eq_some_iff.mp h
    exact Option.bind_eq_some_iff.mpr ⟨r, hr, ih hrest⟩

theorem run_invariant {I : σ → Prop} (hstep : ∀ s l s', I s → M.step s l = some s' → I s') {s s' : σ}
    {ls : List ℓ} (hI : I s) (h : M.run s ls = some s') : I s' := by
  induction ls generalizing s with
  | nil =>
    cases h
    exact hI
  | cons l ls ih =>
    obtain ⟨t, ht, hrest⟩ := Option.bind_eq_some_iff.mp h
    exact ih (hstep s l t hI ht) hrest

theorem Reach.mono {ok ok' : σ → ℓ → Prop} (h : ∀ s l, ok s l → ok' s l) {s : σ}
    (hs : M.Reach ok s) : M.Reach ok' s := by
  induction hs with
  | init => exact .init
  | step _ hok hstep ih => exact .step ih (h _ _ hok) hstep

theorem Reach.reachable {ok : σ → ℓ → Prop} {s : σ} (hs : M.Reach ok s) : M.Reachable s :=
  hs.mono fun _ _ _ => trivial

/-- What holds at the start and is kept by every allowed step holds of every state reached. -/
theorem Reach.invariant {ok : σ → ℓ → Prop} {I : σ → Prop} (hinit : I M.init)
    (hstep : ∀ s l s', I s → ok s l → M.step s l = some s' → I s') {s : σ}
    (hs : M.Reach ok s) : I s := by
  induction hs with
  | init => exact hinit
  | step _ hok h ih => exact hstep _ _ _ ih hok h

theorem Reach.head {ok : σ → ℓ → Prop} {step : σ → ℓ → Option σ} {s t u : σ} {l : ℓ} (hok : ok s l)
    (hstep : step s l = some t) (h : (Machine.mk t step).Reach ok u) : (Machine.mk s step).Reach ok u := by
  induction h with
  | init => exact .step .init hok hstep
  | step _ hok' hstep' ih => exact .step ih hok' hstep'

theorem Reach.run {ok : σ → ℓ → Prop} {s s' : σ} {ls : List ℓ} (hs : M.Reach ok s)
    (hok : ∀ l ∈ ls, ∀ t, ok t l) (h : M.run s ls = some s') : M.Reach ok s' := by
  induction ls generalizing s with
  | nil => cases h; exact hs
  | cons l ls ih =>
    obtain ⟨t, ht, hrest⟩ := Option.bind_eq_some_iff.mp h
    exact ih (.step hs (hok l (.head _) s) ht) (fun l hl => hok l (.tail _ hl)) hrest

/-- `While M P s ls s'`: the labels lead from `s` to `s'`, and `P` holds before each of them. -/
inductive While (M : Machine σ ℓ) (P : σ → Prop) : σ → List ℓ → σ → Prop
  | nil {s} : While M P s [] s
  | cons {s l s' ls s''} : P s → M.step s l = some s' → While M P s' ls s'' →
      While M P s (l :: ls) s''

def runIf (M : Machine σ ℓ) (ok : σ → ℓ → Prop) [∀ s l, Decidable (ok s l)] : σ → List ℓ → Option σ
  | s, [] => some s
  | s, l :: ls => if ok s l then (M.step s l).bind fun s' => runIf M ok s' ls else none

theorem While.of_runIf {P : σ → Prop} [DecidablePred P] {s s' : σ} {ls : List ℓ}
    (h : M.runIf (fun s _ => P s) s ls = some s') : M.While P s ls s' := by
  induction ls generalizing s with
  | nil => cases h; exact .nil
  | cons l ls ih =>
    rw [Machine.runIf] at h
    split at h
    · next hP =>
      obtain ⟨t, ht, hrest⟩ := Option.bind_eq_some_iff.mp h
      exact .cons hP ht (ih hrest)
    · cases h

theorem Reach.runIf {ok : σ → ℓ → Prop} [∀ s l, Decidable (ok s l)] {s s' : σ} {ls : List ℓ}
    (hs : M.Reach ok s) (h : M.runIf ok s ls = some s') : M.Reach ok s' := by
  induction ls generalizing s with
  | nil => cases h; exact hs
  | cons l ls ih =>
    rw [Machine.runIf] at h
    split at h
    · next hok =>
      obtain ⟨t, ht, hrest⟩ := Option.bind_eq_some_iff.mp h
      exact ih (.step hs hok ht) hrest
    · cases h

theorem exists_reach_if {ok : σ → ℓ → Prop} [∀ s l, Decidable (ok s l)] {P : σ → Prop}
    [DecidablePred P] (ls : List ℓ)
    (h : (M.runIf ok M.init ls).any (fun s => decide (P s)) = true) : ∃ s, M.Reach ok s ∧ P s := by
  cases hr : M.runIf ok M.init ls with
  | none => simp [hr] at h
  | some s => exact ⟨s, Reach.runIf .init hr, by simpa [hr] using h⟩

theorem Reach.exists_run {ok : σ → ℓ → Prop} {P : σ → Prop} [DecidablePred P] {s : σ}
    (hs : M.Reach ok s) (ls : List ℓ) (hok : ∀ l ∈ ls, ∀ t, ok t l)
    (h : (M.run s ls).any (fun s => decide (P s)) = true) : ∃ s', M.Reach ok s' ∧ P s' := by
  cases hr : M.run s ls with
  | none => simp [hr] at h
  | some s' => exact ⟨s', hs.run hok hr, by simpa [hr] using h⟩

theorem exists_reach {ok : σ → ℓ → Prop} {P : σ → Prop} [DecidablePred P] (ls : List ℓ)
    (hok : ∀ l ∈ ls, ∀ t, ok t l)
    (h : (M.run M.init ls).any (fun s => decide (P s)) = true) : ∃ s, M.Reach ok s ∧ P s :=
  Reach.init.exists_run ls hok h

theorem exists_reachable {P : σ → Prop} [DecidablePred P] (ls : List ℓ)
    (h : (M.run M.init ls).any (fun s => decide (P s)) = true) : ∃ s, M.Reachable s ∧ P s :=
  exists_reach ls (fun _ _ _ => trivial) h

section Observed

variable {ρ : Type w} {start : ρ} {obs : ρ → σ → ℓ → σ → ρ}

/-- The machine beside what an observer makes of its steps. -/
def observed (M : Machine σ ℓ) (start : ρ) (obs : ρ → σ → ℓ → σ → ρ) : Machine (σ × ρ) ℓ where
  init := (M.init, start)
  step := fun p l => (M.step p.1 l).map fun s' => (s', obs p.2 p.1 l s')

theorem observed_step {s s' : σ} {r : ρ} {l : ℓ} (h : M.step s l = some s') :
    (M.observed start obs).step (s, r) l = some (s', obs r s l s') := by
  simp [observed, h]

theorem step_of_observed {p p' : σ × ρ} {l : ℓ} (h : (M.observed start obs).step p l = some p') :
    M.step p.1 l = some p'.1 ∧ p'.2 = obs p.2 p.1 l p'.1 := by
  obtain ⟨s', hs', rfl⟩ := Option.map_eq_some_iff.mp h
  exact ⟨hs', rfl⟩

theorem Reach.of_observed {ok : σ → ℓ → Prop} {p : σ × ρ}
    (h : (M.observed start obs).Reach (fun p l => ok p.1 l) p) : M.Reach ok p.1 := by
  induction h with
  | init => exact .init
  | step _ hok hstep ih => exact .step ih hok (step_of_observed hstep).1

theorem Reachable.of_observed {p : σ × ρ} (h : (M.observed start obs).Reachable p) :
    M.Reachable p.1 := Reach.of_observed (p := p) h

theorem Reach.observed {ok : σ → ℓ → Prop} (start : ρ) (obs : ρ → σ → ℓ → σ → ρ) {s : σ}
    (h : M.Reach ok s) : ∃ r, (M.observed start obs).Reach (fun p l => ok p.1 l) (s, r) := by
  induction h with
  | init => exact ⟨start, .init⟩
  | @step s l s' _ hok hstep ih =>
    obtain ⟨r, hr⟩ := ih
    exact ⟨obs r s l s', .step hr hok (observed_step hstep)⟩

end Observed

end Machine

end ProxySplit.Lib
