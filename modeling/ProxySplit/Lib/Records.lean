import Mathlib.Data.List.Basic

universe u

namespace ProxySplit.Lib

/-- A text of records: it is cut at the breaks, each piece is brought into its normal form, and only some of
the normal forms count. -/
structure Records (α : Type u) where
  isBreak : α → Bool
  norm : List α → List α
  keep : List α → Bool
  norm_norm : ∀ s, norm (norm s) = norm s
  mem_of_mem_norm : ∀ {s c}, c ∈ norm s → c ∈ s
  keep_nil : keep [] = false

namespace Records

variable {α : Type u} {F : Records α} {s t r : List α} {ds : List (List α)} {x : α}

def read (F : Records α) (text : List α) : List (List α) :=
  ((text.splitOnP F.isBreak).map F.norm).filter F.keep

def write (x : α) (ds : List (List α)) : List α := [x].intercalate ds

structure IsRecord (F : Records α) (r : List α) : Prop where
  norm : F.norm r = r
  keep : F.keep r = true
  whole : ∀ c ∈ r, F.isBreak c = false

theorem norm_nil (F : Records α) : F.norm [] = [] :=
  List.eq_nil_iff_forall_not_mem.mpr fun _ hc => List.not_mem_nil (F.mem_of_mem_norm hc)

@[simp] theorem read_nil (F : Records α) : F.read [] = [] := by
  simp [read, List.splitOnP_nil, norm_nil, keep_nil]

theorem read_append_break (h : F.isBreak x = true) : F.read (s ++ x :: t) = F.read s ++ F.read t := by
  rw [read, List.splitOnP_append_cons s t h, List.map_append, List.filter_append]
  rfl

theorem read_whole (h : ∀ c ∈ s, F.isBreak c = false) : F.read s = [F.norm s].filter F.keep := by
  rw [read, List.splitOnP_eq_singleton h, List.map_singleton]

theorem read_of_isRecord (h : F.IsRecord r) : F.read r = [r] := by
  rw [read_whole h.whole, h.norm, List.filter_cons_of_pos h.keep, List.filter_nil]

theorem whole_of_mem_splitOnP {p : α → Bool} (h : r ∈ s.splitOnP p) : ∀ c ∈ r, p c = false := by
  induction s generalizing r with
  | nil =>
    rw [List.splitOnP_nil, List.mem_singleton] at h
    rw [h]
    exact fun c hc => absurd hc List.not_mem_nil
  | cons a s ih =>
    obtain ⟨piece, pieces, hs⟩ := List.exists_cons_of_ne_nil (List.splitOnP_ne_nil p s)
    rw [List.splitOnP_cons_eq_if_modifyHead, hs] at h
    rw [hs] at ih
    split at h
    · rcases List.mem_cons.mp h with rfl | h
      · exact fun c hc => absurd hc List.not_mem_nil
      · exact ih h
    · next ha =>
      rcases List.mem_cons.mp h with rfl | h
      · refine List.forall_mem_cons.mpr ⟨Bool.eq_false_iff.mpr ha, ?_⟩
        exact ih List.mem_cons_self
      · exact ih (List.mem_cons_of_mem _ h)

theorem isRecord_of_mem_read (h : r ∈ F.read s) : F.IsRecord r := by
  rw [read, List.mem_filter, List.mem_map] at h
  obtain ⟨⟨piece, hpiece, rfl⟩, hkeep⟩ := h
  exact ⟨F.norm_norm piece, hkeep, fun c hc => whole_of_mem_splitOnP hpiece c (F.mem_of_mem_norm hc)⟩

theorem read_write (h : F.isBreak x = true) (ds : List (List α)) :
    F.read (write x ds) = ds.flatMap F.read := by
  induction ds with
  | nil => exact read_nil F
  | cons d ds ih =>
    cases ds with
    | nil => rw [write, List.intercalate_singleton, List.flatMap_singleton]
    | cons e ds =>
      rw [write, List.intercalate_cons_cons, List.append_assoc, List.singleton_append, read_append_break h,
        List.flatMap_cons]
      exact congrArg (F.read d ++ ·) ih

/-- A beginning of what was written holds the first pieces, and a beginning of the next. -/
theorem read_take_write (h : F.isBreak x = true) (ds : List (List α)) (k : Nat) : ∃ n part,
    part <+: ds.getD n [] ∧ F.read ((write x ds).take k) = (ds.take n).flatMap F.read ++ F.read part := by
  induction ds generalizing k with
  | nil => exact ⟨0, [], List.nil_prefix, by simp [write]⟩
  | cons d ds ih =>
    by_cases hk : k ≤ d.length
    · refine ⟨0, d.take k, List.take_prefix k d, ?_⟩
      cases ds with
      | nil => simp [write]
      | cons e ds =>
        rw [write, List.intercalate_cons_cons, List.append_assoc, List.take_append_of_le_length hk]
        rfl
    · cases ds with
      | nil =>
        refine ⟨0, d, List.prefix_rfl, ?_⟩
        rw [write, List.intercalate_singleton, List.take_of_length_le (by omega)]
        rfl
      | cons e ds =>
        obtain ⟨n, part, hpart, hread⟩ := ih (k - d.length - 1)
        refine ⟨n + 1, part, hpart, ?_⟩
        have hcut : (write x (d :: e :: ds)).take k =
            d ++ x :: (write x (e :: ds)).take (k - d.length - 1) := by
          rw [write, List.intercalate_cons_cons, List.append_assoc, List.singleton_append,
            List.take_append, List.take_of_length_le (by omega), List.take_cons (by omega)]
          rfl
        rw [hcut, read_append_break h, hread, List.take_succ_cons, List.flatMap_cons, List.append_assoc]

theorem flatMap_read (h : ∀ d ∈ ds, F.IsRecord d) : ds.flatMap F.read = ds := by
  induction ds with
  | nil => rfl
  | cons d ds ih =>
    obtain ⟨hd, hds⟩ := List.forall_mem_cons.mp h
    rw [List.flatMap_cons, read_of_isRecord hd, ih hds, List.singleton_append]

theorem read_write_eq_iff (h : F.isBreak x = true) : F.read (write x ds) = ds ↔ ∀ d ∈ ds, F.IsRecord d := by
  constructor
  · intro heq d hd
    rw [← heq] at hd
    exact isRecord_of_mem_read hd
  · intro hds
    rw [read_write h, flatMap_read hds]

end Records

end ProxySplit.Lib
