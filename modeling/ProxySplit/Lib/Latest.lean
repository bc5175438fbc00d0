import Mathlib.Data.List.DropRight

namespace ProxySplit.Lib

variable {α σ : Type*} {l l' : List α} {n : Nat} {x : α} {p : α → Bool}

@[simp] theorem length_rtake (l : List α) (n : Nat) : (l.rtake n).length = min n l.length := by
  rw [List.rtake, List.length_drop]
  omega

theorem rtake_of_length_le (h : l.length ≤ n) : l.rtake n = l := by
  rw [List.rtake, Nat.sub_eq_zero_of_le h, List.drop_zero]

theorem rtake_suffix (l : List α) (n : Nat) : l.rtake n <:+ l := List.drop_suffix _ _

theorem eq_rtake_of_suffix (h : l' <:+ l) (hlen : l'.length = min n l.length) : l' = l.rtake n := by
  rw [List.suffix_iff_eq_drop.mp h, List.rtake, hlen]
  congr 1
  omega

theorem rtake_rtake_concat (l : List α) (n : Nat) (x : α) :
    (l.rtake n ++ [x]).rtake n = (l ++ [x]).rtake n := by
  refine eq_rtake_of_suffix ((rtake_suffix _ _).trans ?_) ?_
  · obtain ⟨t, ht⟩ := rtake_suffix l n
    exact ⟨t, by rw [← List.append_assoc, ht]⟩
  · simp only [length_rtake, List.length_append, List.length_singleton]
    omega

theorem filter_suffix (h : l.Pairwise fun a b => p a = true → p b = true) : l.filter p <:+ l := by
  induction l with
  | nil => exact List.suffix_refl _
  | cons a l ih =>
    obtain ⟨hhead, htail⟩ := List.pairwise_cons.mp h
    by_cases ha : p a = true
    · have hall : (a :: l).filter p = a :: l := by
        refine List.filter_eq_self.mpr fun b hb => ?_
        rcases List.mem_cons.mp hb with rfl | hb
        · exact ha
        · exact hhead b hb ha
      exact ⟨[], hall⟩
    · rw [List.filter_cons_of_neg ha]
      exact (ih htail).trans (List.suffix_cons a l)

theorem filter_rtake (h : l.Pairwise fun a b => p a = true → p b = true) (n : Nat) :
    (l.rtake n).filter p = (l.filter p).rtake n := by
  have hcut := filter_suffix h
  have hsuffix := (rtake_suffix l n).filter p
  refine eq_rtake_of_suffix hsuffix ?_
  rcases List.suffix_or_suffix_of_suffix (rtake_suffix l n) hcut with hle | hle
  · have hall : (l.rtake n).filter p = l.rtake n := by
      refine List.filter_eq_self.mpr fun a ha => ?_
      exact List.of_mem_filter (hle.subset ha)
    have := hle.length_le
    have := hcut.length_le
    rw [hall, length_rtake] at *
    omega
  · have hback : (l.filter p).length ≤ ((l.rtake n).filter p).length := by
      simpa only [List.filter_filter, Bool.and_self] using (hle.filter p).length_le
    have := hle.length_le
    have := hsuffix.length_le
    rw [length_rtake] at *
    omega

/-- A cell that only some steps write holds what the last of these has written. -/
theorem exists_last_write (w : σ → α → Option σ) (s : σ) (l : List α) :
    let after := List.foldl (fun s a => (w s a).getD s)
    after s l = s ∧ (∀ a ∈ l, w s a = none) ∨
      ∃ pre a post, l = pre ++ a :: post ∧ w (after s pre) a = some (after s l) ∧
        ∀ b ∈ post, w (after s l) b = none := by
  induction l using List.reverseRecOn with
  | nil => exact .inl ⟨rfl, fun a ha => absurd ha List.not_mem_nil⟩
  | append_singleton l a ih =>
    simp only [List.foldl_concat]
    cases ha : w (l.foldl (fun s a => (w s a).getD s) s) a with
    | some t => exact .inr ⟨l, a, [], rfl, ha, fun b hb => absurd hb List.not_mem_nil⟩
    | none =>
      rcases ih with ⟨hs, hnone⟩ | ⟨pre, b, post, rfl, hb, hnone⟩
      · refine .inl ⟨hs, List.forall_mem_append.mpr ⟨hnone, List.forall_mem_singleton.mpr ?_⟩⟩
        rwa [hs] at ha
      · refine .inr ⟨pre, b, post ++ [a], by simp, hb, ?_⟩
        exact List.forall_mem_append.mpr ⟨hnone, List.forall_mem_singleton.mpr ha⟩

end ProxySplit.Lib
