import Mathlib.Data.Finset.Card
import Mathlib.Data.List.DropRight

universe u

namespace ProxySplit.Lib

variable {α : Type u} [DecidableEq α] {uses keys : List α} {a b : α}

def usedSince (a : α) (uses : List α) : List α := uses.rtakeWhile (· ≠ a)

theorem usedSince_concat_of_ne (h : b ≠ a) : usedSince a (uses ++ [b]) = usedSince a uses ++ [b] :=
  List.rtakeWhile_concat_pos _ _ _ (by simpa using h)

/-- The keys have been used, and each has been used since the last use of those in front of it. -/
structure ByLastUse (uses keys : List α) : Prop where
  used : ∀ a ∈ keys, a ∈ uses
  ordered : keys.Pairwise fun a b => b ∈ usedSince a uses

namespace ByLastUse

theorem nil (uses : List α) : ByLastUse uses [] := ⟨by simp, .nil⟩

theorem sublist {keys' : List α} (h : ByLastUse uses keys) (hsub : keys'.Sublist keys) :
    ByLastUse uses keys' :=
  ⟨fun a ha => h.used a (hsub.subset ha), h.ordered.sublist hsub⟩

theorem touch (h : ByLastUse uses keys) (a : α) :
    ByLastUse (uses ++ [a]) (keys.filter (· ≠ a) ++ [a]) where
  used b hb := by
    rcases List.mem_append.mp hb with hb | hb
    · exact List.mem_append_left _ (h.used b (List.mem_filter.mp hb).1)
    · exact List.mem_append_right _ hb
  ordered := by
    have hne : ∀ b ∈ keys.filter (· ≠ a), a ≠ b := by
      rintro b hb rfl
      simp at hb
    rw [List.pairwise_append]
    refine ⟨?_, List.pairwise_singleton .., ?_⟩
    · refine (h.ordered.sublist List.filter_sublist).imp_of_mem ?_
      intro b c hb _ hc
      rw [usedSince_concat_of_ne (hne b hb)]
      exact List.mem_append_left _ hc
    · intro b hb c hc
      rw [List.mem_singleton.mp hc, usedSince_concat_of_ne (hne b hb)]
      exact List.mem_append_right _ (List.mem_singleton_self a)

theorem length_le {front back : List α} (h : ByLastUse uses (front ++ a :: back))
    (hnodup : (front ++ a :: back).Nodup) : back.length ≤ (usedSince a uses).toFinset.card := by
  have hback : back.Nodup := (List.nodup_cons.mp hnodup.of_append_right).2
  have hsince : ∀ b ∈ back, b ∈ usedSince a uses :=
    (List.pairwise_cons.mp (List.pairwise_append.mp h.ordered).2.1).1
  rw [← List.toFinset_card_of_nodup hback]
  exact Finset.card_le_card fun b hb => List.mem_toFinset.mpr (hsince b (List.mem_toFinset.mp hb))

end ByLastUse

variable (uses) in
theorem card_usedSince_le (h : b ≠ a) :
    (usedSince a uses).toFinset.card ≤ (usedSince a (uses ++ [b])).toFinset.card := by
  rw [usedSince_concat_of_ne h, List.toFinset_append]
  exact Finset.card_le_card Finset.subset_union_left

end ProxySplit.Lib
