import Mathlib.Data.List.Sort
import Mathlib.Data.Set.Card

universe u v

namespace ProxySplit.Lib

/-- A total preorder to sort by. -/
structure Ranking (α : Type u) where
  le : α → α → Bool
  trans : ∀ a b c, le a b = true → le b c = true → le a c = true
  total : ∀ a b, (le a b || le b a) = true

namespace Ranking

variable {α : Type u} {κ : Type v} {r : Ranking α} {l l₁ l₂ : List α} {a b : α} {n : Nat}

def ofKey [LinearOrder κ] (key : α → κ) : Ranking α where
  le a b := key a ≤ key b
  trans a b c hab hbc := decide_eq_true ((of_decide_eq_true hab).trans (of_decide_eq_true hbc))
  total a b := by simpa using le_total (key a) (key b)

/-- A sort that leaves ties as they stand. -/
def rank (r : Ranking α) (l : List α) : List α := l.mergeSort r.le

/-- The first comes before the second, in the list where the two tie. -/
def Before (r : Ranking α) (l : List α) (a b : α) : Prop :=
  r.le a b = true ∧ (r.le b a = true → [a, b].Sublist l)

theorem rank_perm (r : Ranking α) (l : List α) : (r.rank l).Perm l := List.mergeSort_perm ..

theorem mem_rank : a ∈ r.rank l ↔ a ∈ l := (r.rank_perm l).mem_iff

theorem nodup_rank (h : l.Nodup) : (r.rank l).Nodup := (r.rank_perm l).nodup_iff.mpr h

theorem pair_or_pair (ha : a ∈ l) (hb : b ∈ l) (hne : a ≠ b) : [a, b].Sublist l ∨ [b, a].Sublist l := by
  obtain ⟨l₁, l₂, rfl⟩ := List.append_of_mem ha
  rcases List.mem_append.mp hb with hb | hb
  · exact .inr ((List.singleton_sublist.mpr hb).append (List.singleton_sublist.mpr (.head _)))
  · have hb := (List.mem_cons.mp hb).resolve_left hne.symm
    exact .inl (((List.singleton_sublist.mpr hb).cons_cons a).trans (List.sublist_append_right ..))

theorem pair_sublist_iff (h : (l₁ ++ a :: l₂).Nodup) : [a, b].Sublist (l₁ ++ a :: l₂) ↔ b ∈ l₂ := by
  constructor
  · intro hpair
    obtain ⟨s, t, heq, hs, ht⟩ := List.sublist_append_iff.mp hpair
    cases s with
    | nil =>
      rw [List.nil_append] at heq
      subst heq
      exact List.singleton_sublist.mp (List.cons_sublist_cons.mp ht)
    | cons x s =>
      have hx : a = x := (List.cons.inj heq).1
      have hmem : a ∈ l₁ := hs.subset (hx ▸ List.mem_cons_self)
      exact absurd rfl ((List.nodup_append.mp h).2.2 a hmem a List.mem_cons_self)
  · intro hb
    exact ((List.singleton_sublist.mpr hb).cons_cons a).trans (List.sublist_append_right ..)

theorem not_pair_of_pair (h : l.Nodup) (hab : [a, b].Sublist l) : ¬ [b, a].Sublist l := by
  intro hba
  obtain ⟨l₁, l₂, rfl⟩ := List.append_of_mem (hab.subset List.mem_cons_self)
  have hb : b ∈ l₂ := (pair_sublist_iff h).mp hab
  obtain ⟨m₁, m₂, rfl⟩ := List.append_of_mem hb
  have hsplit : l₁ ++ a :: (m₁ ++ b :: m₂) = (l₁ ++ a :: m₁) ++ b :: m₂ := by simp
  rw [hsplit] at h hba
  have ha : a ∈ m₂ := (pair_sublist_iff h).mp hba
  exact absurd rfl ((List.nodup_append.mp h).2.2 a (by simp) a (.tail _ ha))

theorem not_before_of_before (h : l.Nodup) (hab : r.Before l a b) : ¬ r.Before l b a :=
  fun hba => not_pair_of_pair h (hab.2 hba.1) (hba.2 hab.1)

theorem pairwise_before (h : l.Nodup) : (r.rank l).Pairwise (r.Before l) := by
  refine List.pairwise_iff_forall_sublist.mpr fun {a b} hpair => ?_
  have hle : r.le a b = true := (List.pairwise_mergeSort r.trans r.total l).forall_sublist hpair
  refine ⟨hle, fun htie => ?_⟩
  have hrank := nodup_rank (r := r) h
  have hne : a ≠ b := by
    rintro rfl
    exact List.nodup_iff_sublist.mp hrank a hpair
  have ha : a ∈ l := mem_rank.mp (hpair.subset (by simp))
  have hb : b ∈ l := mem_rank.mp (hpair.subset (by simp))
  refine (pair_or_pair ha hb hne).resolve_right fun hba => ?_
  exact not_pair_of_pair hrank hpair (List.pair_sublist_mergeSort r.trans r.total htie hba)

theorem before_iff (h : l.Nodup) (hsplit : r.rank l = l₁ ++ a :: l₂) : b ∈ l ∧ r.Before l b a ↔ b ∈ l₁ := by
  have hpairwise := pairwise_before (r := r) h
  rw [hsplit, List.pairwise_append, List.pairwise_cons] at hpairwise
  obtain ⟨-, ⟨hafter, -⟩, hbefore⟩ := hpairwise
  have hmem : ∀ {c}, c ∈ l ↔ c ∈ l₁ ∨ c = a ∨ c ∈ l₂ := by
    intro c
    rw [← mem_rank (r := r), hsplit, List.mem_append, List.mem_cons]
  constructor
  · rintro ⟨hb, hba⟩
    rcases hmem.mp hb with hb | rfl | hb
    · exact hb
    · exact absurd hba (not_before_of_before h hba)
    · exact absurd hba (not_before_of_before h (hafter b hb))
  · intro hb
    exact ⟨hmem.mpr (.inl hb), hbefore b hb a List.mem_cons_self⟩

theorem ncard_before (h : l.Nodup) (hsplit : r.rank l = l₁ ++ a :: l₂) :
    {b | b ∈ l ∧ r.Before l b a}.ncard = l₁.length := by
  classical
  have hset : {b | b ∈ l ∧ r.Before l b a} = (l₁.toFinset : Set α) := by
    ext b
    simp [before_iff h hsplit]
  have hrank := nodup_rank (r := r) h
  rw [hsplit] at hrank
  rw [hset, Set.ncard_coe_finset, List.toFinset_card_of_nodup hrank.of_append_left]

/-- The first `n` of a ranking are those that fewer than `n` others come before. -/
theorem mem_take_rank_iff (h : l.Nodup) :
    a ∈ (r.rank l).take n ↔ a ∈ l ∧ {b | b ∈ l ∧ r.Before l b a}.ncard < n := by
  constructor
  · intro ha
    obtain ⟨l₁, l₂, htake⟩ := List.append_of_mem ha
    have hsplit : r.rank l = l₁ ++ a :: (l₂ ++ (r.rank l).drop n) := by
      conv_lhs => rw [← List.take_append_drop n (r.rank l), htake]
      simp
    have hlength : l₁.length < n := by
      have hle := List.length_take_le n (r.rank l)
      rw [htake, List.length_append, List.length_cons] at hle
      omega
    exact ⟨mem_rank.mp (List.mem_of_mem_take ha), (ncard_before h hsplit).trans_lt hlength⟩
  · rintro ⟨ha, hcard⟩
    obtain ⟨l₁, l₂, hsplit⟩ := List.append_of_mem (mem_rank (r := r).mpr ha)
    rw [ncard_before h hsplit] at hcard
    obtain ⟨k, rfl⟩ := Nat.exists_eq_add_of_lt hcard
    rw [hsplit, Nat.add_assoc, List.take_length_add_append, List.take_succ_cons]
    exact List.mem_append_right _ List.mem_cons_self

theorem rank_eq_of_perm {l' : List α} (h : l.Perm l')
    (hanti : ∀ a ∈ l, ∀ b ∈ l, r.le a b = true → r.le b a = true → a = b) : r.rank l = r.rank l' := by
  have hanti' : ∀ a b, a ∈ r.rank l → b ∈ r.rank l' → r.le a b = true → r.le b a = true → a = b :=
    fun a b ha hb => hanti a (mem_rank.mp ha) b (h.mem_iff.mpr (mem_rank.mp hb))
  exact List.Perm.eq_of_pairwise hanti' (List.pairwise_mergeSort r.trans r.total l)
    (List.pairwise_mergeSort r.trans r.total l') (((r.rank_perm l).trans h).trans (r.rank_perm l').symm)

end Ranking

end ProxySplit.Lib
