import Mathlib.Data.List.Basic
import Mathlib.Data.List.Infix

universe u

namespace ProxySplit.Lib

variable {α : Type u} [DecidableEq α] {w s a b : List α} {x : α} {p : α → Bool}

omit [DecidableEq α] in
theorem infix_append_cons_iff (h : x ∉ w) : w <:+: a ++ x :: b ↔ w <:+: a ∨ w <:+: b := by
  rw [List.infix_append_iff]
  constructor
  · rintro (ha | hb | ⟨w₁, w₂, rfl, h₁, h₂⟩)
    · exact .inl ha
    · rcases List.infix_cons_iff.mp hb with hpre | hb
      · rcases List.prefix_cons_iff.mp hpre with rfl | ⟨t, rfl, -⟩
        · exact .inr (List.nil_infix)
        · exact absurd (.head _) h
      · exact .inr hb
    · rcases List.prefix_cons_iff.mp h₂ with rfl | ⟨t, rfl, -⟩
      · rw [List.append_nil]
        exact .inl h₁.isInfix
      · exact absurd (List.mem_append_right _ (.head _)) h
  · rintro (ha | hb)
    · exact .inl ha
    · exact .inr (.inl (List.infix_cons hb))

omit [DecidableEq α] in
theorem eq_or_of_append_cons {a' b' : List α} (h : x ∉ a) (heq : a ++ x :: b = a' ++ x :: b') :
    a' = a ∧ b' = b ∨ ∃ mid, a' = a ++ x :: mid ∧ b = mid ++ x :: b' := by
  rcases List.append_eq_append_iff.mp heq with ⟨mid, rfl, hb⟩ | ⟨mid, rfl, hb⟩
  · cases mid with
    | nil => exact .inl ⟨List.append_nil a, (List.cons.inj hb).2.symm⟩
    | cons y mid =>
      obtain ⟨rfl, hmid⟩ := List.cons.inj hb
      exact .inr ⟨mid, rfl, hmid⟩
  · cases mid with
    | nil => exact .inl ⟨(List.append_nil a').symm, (List.cons.inj hb).2⟩
    | cons y mid =>
      obtain ⟨rfl, -⟩ := List.cons.inj hb
      exact absurd (List.mem_append_right _ (.head _)) h

omit [DecidableEq α] in
theorem eq_or_of_append_cons' {a' b' : List α} (h : x ∉ b) (heq : a ++ x :: b = a' ++ x :: b') :
    a' = a ∧ b' = b ∨ ∃ mid, b' = mid ++ x :: b ∧ a = a' ++ x :: mid := by
  rcases List.append_eq_append_iff.mp heq with ⟨mid, rfl, hb⟩ | ⟨mid, rfl, hb⟩
  · cases mid with
    | nil => exact .inl ⟨List.append_nil a, (List.cons.inj hb).2.symm⟩
    | cons y mid =>
      obtain ⟨rfl, rfl⟩ := List.cons.inj hb
      exact absurd (List.mem_append_right _ (.head _)) h
  · cases mid with
    | nil => exact .inl ⟨(List.append_nil a').symm, (List.cons.inj hb).2⟩
    | cons y mid =>
      obtain ⟨rfl, rfl⟩ := List.cons.inj hb
      exact .inr ⟨mid, rfl, rfl⟩

theorem infix_splitOn_iff (h : x ∉ w) : w <:+: s ↔ ∃ piece ∈ s.splitOn x, w <:+: piece := by
  induction hs : s.length using Nat.strong_induction_on generalizing s with
  | _ n ih =>
    by_cases hx : x ∈ s
    · obtain ⟨a, b, rfl, hout⟩ := List.eq_append_cons_of_mem hx
      rw [infix_append_cons_iff h, List.splitOn_append_cons_self_of_not_mem hout]
      simp only [List.length_append, List.length_cons] at hs
      rw [ih b.length (by omega) rfl]
      simp
    · rw [List.splitOn_eq_singleton hx]
      simp

theorem not_mem_of_mem_splitOn {piece : List α} (h : piece ∈ s.splitOn x) : x ∉ piece := by
  induction hs : s.length using Nat.strong_induction_on generalizing s with
  | _ n ih =>
    by_cases hx : x ∈ s
    · obtain ⟨a, b, rfl, hout⟩ := List.eq_append_cons_of_mem hx
      rw [List.splitOn_append_cons_self_of_not_mem hout] at h
      simp only [List.length_append, List.length_cons] at hs
      rcases List.mem_cons.mp h with rfl | h
      · exact hout
      · exact ih b.length (by omega) h rfl
    · rw [List.splitOn_eq_singleton hx, List.mem_singleton] at h
      rwa [h]

theorem splitOn_map {f : α → α} (h : ∀ c, f c = x ↔ c = x) :
    (s.map f).splitOn x = (s.splitOn x).map (List.map f) := by
  induction s with
  | nil => rfl
  | cons c s ih =>
    rw [List.map_cons, List.splitOn_cons_eq_if_modifyHead, List.splitOn_cons_eq_if_modifyHead, ih]
    by_cases hc : c = x
    · simp [hc, (h x).mpr rfl]
    · have hfc : ¬ f c = x := (h c).not.mpr hc
      simp only [beq_iff_eq, hc, hfc, if_false]
      cases s.splitOn x with
      | nil => rfl
      | cons piece pieces => rfl

omit [DecidableEq α] in
theorem infix_dropWhile_iff (h : ∀ c ∈ w, p c = false) : w <:+: s.dropWhile p ↔ w <:+: s := by
  induction s with
  | nil => rfl
  | cons c s ih =>
    cases hc : p c with
    | false => rw [List.dropWhile_cons_of_neg (by simp [hc])]
    | true =>
      have hout : c ∉ w := fun hmem => Bool.false_ne_true ((h c hmem).symm.trans hc)
      have hcons := infix_append_cons_iff (a := []) (b := s) hout
      rw [List.dropWhile_cons_of_pos hc, ih, ← List.nil_append (c :: s), hcons]
      constructor
      · exact .inr
      · rintro (hnil | hs)
        · rw [List.infix_nil.mp hnil]
          exact List.nil_infix
        · exact hs

end ProxySplit.Lib
