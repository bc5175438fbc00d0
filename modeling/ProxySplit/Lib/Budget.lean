import ProxySplit.Lib.Interaction
import ProxySplit.Lib.Machine
import Mathlib.Algebra.Order.BigOperators.Group.Finset
import Mathlib.Data.Fintype.BigOperators

universe u v w

namespace ProxySplit.Lib

namespace Prog

variable {E : Type u} {A : E → Type v} {α : Type w}

def total (c : (e : E) → A e → Nat) : List (Event E A) → Nat
  | [] => 0
  | ⟨e, x⟩ :: tr => c e x + total c tr

def Monitor.tally (c : (e : E) → A e → Nat) : Monitor E A Nat := fun n e x => n + c e x

theorem Monitor.after_tally (c : (e : E) → A e → Nat) (n : Nat) (tr : List (Event E A)) :
    (tally c).after n tr = n + total c tr := by
  induction tr generalizing n with
  | nil => rfl
  | cons ev tr ih =>
    rw [after, ih, tally, total, Nat.add_assoc]

theorem total_append (c : (e : E) → A e → Nat) (tr tr' : List (Event E A)) :
    total c (tr ++ tr') = total c tr + total c tr' := by
  induction tr with
  | nil => simp [total]
  | cons ev tr ih => rw [List.cons_append, total, ih, total, Nat.add_assoc]

theorem total_concat (c : (e : E) → A e → Nat) (tr : List (Event E A)) (ev : Event E A) :
    total c (tr ++ [ev]) = total c tr + c ev.1 ev.2 := total_append c tr [ev]

theorem Monitor.Always.after {σ : Type w} {m : Monitor E A σ} {I : σ → Prop} {s : σ}
    {tr : List (Event E A)} (h : m.Always (fun s e x => I (m s e x)) s tr) (hs : I s) :
    I (m.after s tr) := by
  induction tr generalizing s with
  | nil => exact hs
  | cons ev tr ih => exact ih h.2 h.1

def advance [DecidableEq E] : Prog E A α → Event E A → Option (Prog E A α)
  | .pure _, _ => none
  | .perform e k, ev => if h : ev.1 = e then some (k (h ▸ ev.2)) else none

theorem eq_perform_of_advance [DecidableEq E] {p q : Prog E A α} {ev : Event E A}
    (h : p.advance ev = some q) : ∃ k, p = .perform ev.1 k := by
  cases p with
  | pure a => cases h
  | perform e k =>
    rw [advance] at h
    split at h
    · next heq =>
      subst heq
      exact ⟨k, rfl⟩
    · cases h

theorem Steps.concat [DecidableEq E] {p q r : Prog E A α} {tr : List (Event E A)} {ev : Event E A}
    (hs : Steps p tr q) (h : q.advance ev = some r) : Steps p (tr ++ [ev]) r := by
  induction hs with
  | refl =>
    rename_i p
    cases p with
    | pure a => cases h
    | perform e k =>
      obtain ⟨e', x⟩ := ev
      rw [advance] at h
      split at h
      · next heq =>
        cases heq
        cases h
        exact .perform .refl
      · cases h
  | perform _ ih => exact .perform (ih h)

end Prog

open Prog

variable {E : Type u} {A : E → Type v} {α : Type w} {ι : Type} [DecidableEq ι]

/-- Programs that run side by side: what is left of the budget that they share, and of each program
what it did and what it still has to do. -/
structure Crew (ι : Type) (E : Type u) (A : E → Type v) (α : Type w) where
  left : Nat
  trace : ι → List (Event E A)
  rest : ι → Prog E A α

namespace Crew

inductive Label (ι : Type) (E : Type u) (A : E → Type v)
  | act (i : ι) (ev : Event E A)
  | lose

def start (p : ι → Prog E A α) (budget : Nat) : Crew ι E A α := ⟨budget, fun _ => [], p⟩

variable [DecidableEq E]

def step (cost : (e : E) → A e → Nat) (s : Crew ι E A α) : Label ι E A → Option (Crew ι E A α)
  | .act i ev =>
    if cost ev.1 ev.2 ≤ s.left then
      ((s.rest i).advance ev).map fun q =>
        { left := s.left - cost ev.1 ev.2
          trace := Function.update s.trace i (s.trace i ++ [ev])
          rest := Function.update s.rest i q }
    else none
  | .lose => if 0 < s.left then some { s with left := s.left - 1 } else none

def machine (p : ι → Prog E A α) (cost : (e : E) → A e → Nat) (budget : Nat) :
    Machine (Crew ι E A α) (Label ι E A) := ⟨start p budget, step cost⟩

theorem perform_of_act {cost : (e : E) → A e → Nat} {s s' : Crew ι E A α} {i : ι} {ev : Event E A}
    (h : s.step cost (.act i ev) = some s') : (∃ k, s.rest i = .perform ev.1 k) ∧
      s'.trace = Function.update s.trace i (s.trace i ++ [ev]) := by
  rw [step] at h
  split at h
  · obtain ⟨q, hq, rfl⟩ := Option.map_eq_some_iff.mp h
    exact ⟨eq_perform_of_advance hq, rfl⟩
  · cases h

structure Conserved [Fintype ι] (p : ι → Prog E A α) (cost : (e : E) → A e → Nat) (budget : Nat)
    (s : Crew ι E A α) : Prop where
  steps : ∀ i, Steps (p i) (s.trace i) (s.rest i)
  drawn : s.left + ∑ i, total cost (s.trace i) ≤ budget

section

variable [Fintype ι] {p : ι → Prog E A α} {cost : (e : E) → A e → Nat} {budget : Nat}
  {s s' : Crew ι E A α}

omit [DecidableEq E] in
theorem sum_total_update (c : (e : E) → A e → Nat) (trace : ι → List (Event E A)) (i : ι)
    (ev : Event E A) : ∑ j, total c (Function.update trace i (trace i ++ [ev]) j) =
      ∑ j, total c (trace j) + c ev.1 ev.2 := by
  have hmem := Finset.mem_univ i
  rw [← Finset.add_sum_erase _ _ hmem, ← Finset.add_sum_erase _ (fun j => total c (trace j)) hmem,
    Function.update_self, total_concat]
  have hrest : ∑ j ∈ Finset.univ.erase i, total c (Function.update trace i (trace i ++ [ev]) j) =
      ∑ j ∈ Finset.univ.erase i, total c (trace j) := by
    refine Finset.sum_congr rfl fun j hj => ?_
    rw [Function.update_of_ne (Finset.ne_of_mem_erase hj)]
  omega

theorem Conserved.step (h : s.Conserved p cost budget) {l : Label ι E A}
    (hstep : s.step cost l = some s') : s'.Conserved p cost budget := by
  obtain ⟨hsteps, hdrawn⟩ := h
  cases l with
  | act i ev =>
    rw [Crew.step] at hstep
    split at hstep
    · next hcost =>
      obtain ⟨q, hq, rfl⟩ := Option.map_eq_some_iff.mp hstep
      constructor
      · intro j
        by_cases hj : j = i
        · subst hj
          simpa using (hsteps j).concat hq
        · simpa [hj] using hsteps j
      · rw [sum_total_update]
        dsimp only
        omega
    · cases hstep
  | lose =>
    rw [Crew.step] at hstep
    split at hstep
    · cases hstep
      exact ⟨hsteps, by dsimp only; omega⟩
    · cases hstep

theorem conserved_of_reachable (hs : (machine p cost budget).Reachable s) :
    s.Conserved p cost budget := by
  refine Machine.Reach.invariant (I := Conserved p cost budget) ?_ ?_ hs
  · exact ⟨fun _ => .refl, by simp [machine, start, total]⟩
  · exact fun s l s' h _ hstep => h.step hstep

/-- If each program does at most so many of something for free and one more for every part of the
budget, all of them together do at most that. -/
theorem sum_total_le {c : (e : E) → A e → Nat} {free : ι → Nat}
    (h : ∀ i tr q, Steps (p i) tr q → total c tr ≤ free i + total cost tr)
    (hs : (machine p cost budget).Reachable s) :
    ∑ i, total c (s.trace i) ≤ ∑ i, free i + budget := by
  obtain ⟨hsteps, hdrawn⟩ := conserved_of_reachable hs
  calc ∑ i, total c (s.trace i)
      ≤ ∑ i, (free i + total cost (s.trace i)) := Finset.sum_le_sum fun i _ => h i _ _ (hsteps i)
    _ = ∑ i, free i + ∑ i, total cost (s.trace i) := Finset.sum_add_distrib
    _ ≤ ∑ i, free i + budget := by omega

theorem drawn_eq {ok : Crew ι E A α → Label ι E A → Prop} (hlose : ∀ s, ¬ ok s .lose)
    (hs : (machine p cost budget).Reach ok s) :
    s.left + ∑ i, total cost (s.trace i) = budget := by
  refine hs.invariant (I := fun s => s.left + ∑ i, total cost (s.trace i) = budget) ?_ ?_
  · simp [machine, start, total]
  · intro s l s' hI hok hstep
    cases l with
    | lose => exact absurd hok (hlose s)
    | act i ev =>
      change Crew.step cost s (.act i ev) = some s' at hstep
      rw [Crew.step] at hstep
      split at hstep
      · obtain ⟨q, -, rfl⟩ := Option.map_eq_some_iff.mp hstep
        rw [sum_total_update]
        dsimp only
        omega
      · cases hstep

omit [Fintype ι] in
theorem reach_alone {ok : Crew ι E A α → Label ι E A → Prop} (hs : (machine p cost budget).Reach ok s)
    {i : ι} {tr : List (Event E A)} {q : Prog E A α} (h : Steps (s.rest i) tr q)
    (hcost : total cost tr ≤ s.left)
    (hok : ∀ t, (∀ j, j ≠ i → t.rest j = s.rest j) → ∀ ev ∈ tr, ok t (.act i ev)) :
    ∃ s', (machine p cost budget).Reach ok s' ∧ s'.rest i = q ∧ (∀ j, j ≠ i → s'.rest j = s.rest j) ∧
      s'.left + total cost tr = s.left := by
  induction tr generalizing s with
  | nil =>
    generalize hp : s.rest i = p' at h
    cases h
    exact ⟨s, hs, hp, fun _ _ => rfl, rfl⟩
  | cons ev tr ih =>
    obtain ⟨e, x⟩ := ev
    rw [total] at hcost
    generalize hp : s.rest i = p' at h
    cases h with
    | @perform _ k _ _ _ hrest =>
      have hstep : (machine p cost budget).step s (.act i ⟨e, x⟩) =
          some ⟨s.left - cost e x, Function.update s.trace i (s.trace i ++ [⟨e, x⟩]),
            Function.update s.rest i (k x)⟩ := by
        change Crew.step cost s (.act i ⟨e, x⟩) = _
        rw [Crew.step, if_pos (by dsimp only; omega), hp, advance, dif_pos rfl, Option.map_some]
      have hothers : ∀ j, j ≠ i → Function.update s.rest i (k x) j = s.rest j :=
        fun j hj => Function.update_of_ne hj ..
      obtain ⟨s', hs', hq, hsame, hleft⟩ := ih
        (.step hs (hok s (fun _ _ => rfl) _ (.head _)) hstep) (by simpa using hrest)
        (by dsimp only; omega)
        fun t ht ev hev => hok t (fun j hj => (ht j hj).trans (hothers j hj)) ev (.tail _ hev)
      refine ⟨s', hs', hq, fun j hj => (hsame j hj).trans (hothers j hj), ?_⟩
      rw [total]
      dsimp only at hleft
      omega

end

end Crew

end ProxySplit.Lib
