import ProxySplit.Lib.Exposition

namespace ProxySplit.Lib.Exposition

variable {name value l : List Char} {seen : List (List Char)}

theorem parse_append (text rest : List Char) : parse (text ++ '\n' :: rest) =
    (parse (text ++ ['\n'])).bind fun xs => (parse rest).map (xs ++ ·) := by
  have hsplit : ∀ rest : List Char, (text ++ '\n' :: rest).splitOn '\n' =
      text.splitOn '\n' ++ rest.splitOn '\n' := List.splitOn_append_cons_self text
  have hempty : ([] : List Char).splitOn '\n' = [[]] := rfl
  have hlast : ∀ rest : List Char, (text.splitOn '\n' ++ rest.splitOn '\n').getLast? =
      (rest.splitOn '\n').getLast? := by
    intro rest
    obtain ⟨l, ls, hls⟩ := List.exists_cons_of_ne_nil (List.splitOn_ne_nil '\n' rest)
    rw [hls, List.getLast?_append_of_ne_nil _ (List.cons_ne_nil _ _)]
  have hline : List.mapM line [([] : List Char)] = some [[]] := rfl
  rw [parse, hsplit, hlast, parse, hsplit, hlast, parse, hempty, List.getLast?_singleton, if_pos rfl,
    List.mapM_append, List.mapM_append, hline]
  by_cases h : (rest.splitOn '\n').getLast? = some []
  · rw [if_pos h, if_pos h]
    cases (text.splitOn '\n').mapM line with
    | none => rfl
    | some xs =>
      cases (rest.splitOn '\n').mapM line with
      | none => rfl
      | some ys => simp
  · rw [if_neg h, if_neg h]
    cases (text.splitOn '\n').mapM line with
    | none => rfl
    | some xs => rfl

theorem joinLines_append (ls ls' : List (List Char)) :
    joinLines (ls ++ ls') = joinLines ls ++ joinLines ls' := List.flatMap_append

theorem splitOn_of_lines {ls : List (List Char)} (h : ∀ l ∈ ls, '\n' ∉ l) :
    (joinLines ls).splitOn '\n' = ls ++ [[]] := by
  have hlines : ls.flatMap (List.splitOn '\n') = ls := by
    refine (List.flatMap_congr fun l hl => List.splitOn_eq_singleton (h l hl)).trans ?_
    exact List.flatMap_singleton' ls
  rw [splitOn_joinLines, hlines]

theorem blanks_number (h : number value = true) : blanks (' ' :: value) = value ∧ value ≠ [] := by
  have hne : value ≠ [] := by
    rintro rfl
    exact absurd h (by decide)
  obtain ⟨c, rest, rfl⟩ := List.exists_cons_of_ne_nil hne
  refine ⟨?_, hne⟩
  rw [blanks, List.dropWhile_cons_of_pos (by decide)]
  exact blanks_cons (bare_of_number h c (.head _)).1 rest

theorem line_bare (hname : Name metricChar name) (hvalue : number value = true) :
    line (name ++ ' ' :: value) = some [⟨name, [], value⟩] := by
  obtain ⟨hblanks, hne⟩ := blanks_number hvalue
  have hlabels : labelSet (' ' :: value) = some ([], ' ' :: value) := by
    have hbrace : ∀ {c rest}, value = c :: rest → c ≠ '\x7b' := by
      rintro c rest rfl rfl
      have hchar := List.all_eq_true.mp (Bool.and_eq_true_iff.mp hvalue).1 '\x7b' (.head _)
      exact absurd hchar (by decide)
    obtain ⟨c, rest, hcons⟩ := List.exists_cons_of_ne_nil hne
    have hexpect : expect '\x7b' (' ' :: value) = none := by
      rw [expect, hblanks, hcons]
      exact if_neg (hbrace hcons)
    rw [labelSet, hexpect]
  have hsample : sample (name ++ ' ' :: value) = some ⟨name, [], value⟩ := by
    rw [sample, takeName_append hname (by decide)]
    simp only [Option.bind_eq_bind, Option.bind_some, hlabels, splitOnP_number hvalue, hvalue, if_true]
  obtain ⟨c, more, rfl, hc⟩ := hname.exists_cons
  obtain ⟨hblank, hhash, -, -⟩ := of_metricChar hc
  rw [List.cons_append] at hsample ⊢
  rw [line, blanks_cons hblank]
  split
  · next heq => cases heq
  · next heq => exact absurd (List.cons.inj heq).1 hhash
  · rw [hsample, Option.map_some]

def typed? (l : List Char) : Option (List Char) :=
  match blanks l with
  | '#' :: rest =>
    match (rest.splitOnP isBlank).filter (· ≠ []) with
    | [word, name, _] => if word = "TYPE".toList then some name else none
    | _ => none
  | _ => none

/-- Every sample stands behind the TYPE comment of its name, and no name has two. -/
def Declared (seen : List (List Char)) : List (List Char) → Prop
  | [] => True
  | l :: ls => (∀ x ∈ (line l).getD [], x.name ∈ seen) ∧ (∀ name ∈ typed? l, name ∉ seen) ∧
      Declared (seen ++ (typed? l).toList) ls

theorem declared_append {ls ls' : List (List Char)} : Declared seen (ls ++ ls') ↔
    Declared seen ls ∧ Declared (seen ++ ls.filterMap typed?) ls' := by
  induction ls generalizing seen with
  | nil => simp [Declared]
  | cons l ls ih =>
    have htypes : (l :: ls).filterMap typed? = (typed? l).toList ++ ls.filterMap typed? := by
      rw [List.filterMap_cons]
      cases typed? l with
      | none => rfl
      | some name => rfl
    rw [List.cons_append, Declared, Declared, ih, htypes, List.append_assoc, and_assoc, and_assoc]

theorem declared_of_samples {ls : List (List Char)}
    (h : ∀ l ∈ ls, typed? l = none ∧ ∀ x ∈ (line l).getD [], x.name ∈ seen) : Declared seen ls := by
  induction ls with
  | nil => exact trivial
  | cons l ls ih =>
    obtain ⟨⟨htyped, hseen⟩, hrest⟩ := List.forall_mem_cons.mp h
    refine ⟨hseen, by simp [htyped], ?_⟩
    rw [htyped, Option.toList_none, List.append_nil]
    exact ih hrest

theorem declared_of_comments {ls : List (List Char)} (h : ∀ l ∈ ls, line l = some [])
    (hnodup : (seen ++ ls.filterMap typed?).Nodup) : Declared seen ls := by
  induction ls generalizing seen with
  | nil => exact trivial
  | cons l ls ih =>
    obtain ⟨hline, hrest⟩ := List.forall_mem_cons.mp h
    have htypes : seen ++ (l :: ls).filterMap typed? =
        (seen ++ (typed? l).toList) ++ ls.filterMap typed? := by
      rw [List.filterMap_cons, List.append_assoc]
      cases typed? l with
      | none => rfl
      | some name => rfl
    rw [htypes] at hnodup
    refine ⟨by simp [hline], fun name hname hmem => ?_, ih hrest hnodup⟩
    have hseen := (List.nodup_append.mp (List.nodup_append.mp hnodup).1).2.2
    exact hseen name hmem name (Option.mem_toList.mpr hname) rfl

theorem typed?_append (hname : Name metricChar name) (rest : List Char) : typed? (name ++ rest) = none := by
  obtain ⟨c, more, rfl, hc⟩ := hname.exists_cons
  obtain ⟨hblank, hhash, -, -⟩ := of_metricChar hc
  rw [typed?, List.cons_append, blanks_cons hblank]
  split
  · next heq => exact absurd (List.cons.inj heq).1 hhash
  · rfl

end ProxySplit.Lib.Exposition
