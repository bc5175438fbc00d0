import Mathlib.Data.List.DropRight
import Mathlib.Data.List.Nodup

universe u

namespace ProxySplit.Lib

variable {α : Type u} {w : Nat} {l : List α} {a : α}

/-- Any `w + 1` consecutive elements are pairwise distinct. -/
def Spaced (w : Nat) (l : List α) : Prop := ∀ i, ((l.drop i).take (w + 1)).Nodup

theorem Spaced.nil : Spaced w ([] : List α) := fun i => by simp

theorem spaced_zero (l : List α) : Spaced 0 l := by
  intro i
  cases l.drop i with
  | nil => simp
  | cons b rest => simp

theorem spaced_concat : Spaced w (l ++ [a]) ↔ Spaced w l ∧ a ∉ l.rtake w := by
  have hdrop : ∀ {i}, i ≤ l.length → (l ++ [a]).drop i = l.drop i ++ [a] :=
    fun hi => List.drop_append_of_le_length hi
  constructor
  · intro h
    refine ⟨fun i => ?_, fun hmem => ?_⟩
    · have hwin := h i
      by_cases hi : i ≤ l.length
      · rw [hdrop hi, List.take_append] at hwin
        exact hwin.of_append_left
      · rw [List.drop_of_length_le (not_le.mp hi).le]
        simp
    · have hwin := h (l.length - w)
      rw [hdrop (Nat.sub_le ..), List.take_of_length_le (by simp; omega)] at hwin
      exact List.disjoint_of_nodup_append hwin hmem (List.mem_singleton_self a)
  · rintro ⟨h, hnew⟩ i
    by_cases hi : i ≤ l.length
    · rw [hdrop hi]
      by_cases hfull : w + 1 ≤ (l.drop i).length
      · rw [List.take_append_of_le_length hfull]
        exact h i
      · have hshort : (l.drop i).length ≤ w := by omega
        have hnodup := h i
        rw [List.take_of_length_le (by omega)] at hnodup
        rw [List.take_of_length_le (by simpa using hshort)]
        refine List.Nodup.append hnodup (List.nodup_singleton a) ?_
        rw [List.disjoint_singleton]
        refine fun hmem => hnew ((List.drop_sublist_drop_left l ?_).subset hmem)
        rw [List.length_drop] at hshort
        omega
    · rw [List.drop_of_length_le (by simp; omega)]
      simp

theorem spaced_iff : Spaced w l ↔ ∀ k b, l[k]? = some b → b ∉ (l.take k).rtake w := by
  induction l using List.reverseRecOn with
  | nil => simp [Spaced.nil]
  | append_singleton l a ih =>
    rw [spaced_concat, ih]
    constructor
    · rintro ⟨hall, hnew⟩ k b hk
      rcases Nat.lt_or_ge k l.length with hlt | hge
      · rw [List.getElem?_append_left hlt] at hk
        rw [List.take_append_of_le_length hlt.le]
        exact hall k b hk
      · have heq : k = l.length := by
          have := (List.getElem?_eq_some_iff.mp hk).1
          simp at this
          omega
        subst heq
        simp only [List.getElem?_concat_length, Option.some.injEq] at hk
        subst hk
        simpa using hnew
    · intro h
      refine ⟨fun k b hk => ?_, ?_⟩
      · have hlt := (List.getElem?_eq_some_iff.mp hk).1
        have hkeep := h k b (by rwa [List.getElem?_append_left hlt])
        rwa [List.take_append_of_le_length hlt.le] at hkeep
      · simpa using h l.length a (by simp)

end ProxySplit.Lib
