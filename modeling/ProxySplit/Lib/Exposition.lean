import Mathlib.Data.List.Basic
import Mathlib.Data.List.TakeWhile

namespace ProxySplit.Lib.Exposition

structure Sample where
  name : List Char
  labels : List (List Char × List Char)
  value : List Char
  deriving DecidableEq

def isBlank (c : Char) : Bool := c = ' ' || c = '\t'

def blanks (s : List Char) : List Char := s.dropWhile isBlank

def labelChar (c : Char) : Bool := c.isAlphanum || c = '_'

def metricChar (c : Char) : Bool := labelChar c || c = ':'

def takeName (chars : Char → Bool) (s : List Char) : Option (List Char × List Char) :=
  let name := s.takeWhile chars
  if name = [] ∨ name.head?.any Char.isDigit = true then none else some (name, s.drop name.length)

def quoted : List Char → Option (List Char × List Char)
  | [] => none
  | '"' :: rest => some ([], rest)
  | '\\' :: '\\' :: rest => (quoted rest).map fun r => ('\\' :: r.1, r.2)
  | '\\' :: '"' :: rest => (quoted rest).map fun r => ('"' :: r.1, r.2)
  | '\\' :: 'n' :: rest => (quoted rest).map fun r => ('\n' :: r.1, r.2)
  | c :: rest => if c = '\\' ∨ c = '\n' then none else (quoted rest).map fun r => (c :: r.1, r.2)

def expect (c : Char) (s : List Char) : Option (List Char) :=
  match blanks s with
  | [] => none
  | d :: rest => if d = c then some rest else none

def label (s : List Char) : Option ((List Char × List Char) × List Char) := do
  let (name, s) ← takeName labelChar (blanks s)
  let (value, s) ← ((expect '=' s).bind (expect '"')).bind quoted
  some ((name, value), s)

def labels : (fuel : Nat) → List Char → Option (List (List Char × List Char) × List Char)
  | 0, _ => none
  | fuel + 1, s =>
    match expect '\x7d' s with
    | some rest => some ([], rest)
    | none => do
      let (l, s) ← label s
      match expect '\x7d' s with
      | some rest => some ([l], rest)
      | none => do
        let (more, rest) ← (expect ',' s).bind (labels fuel)
        some (l :: more, rest)

def digits (s : List Char) : Bool := s ≠ [] && s.all Char.isDigit

def unsign (s : List Char) : List Char :=
  match s with
  | '+' :: rest => rest
  | '-' :: rest => rest
  | rest => rest

def integer (s : List Char) : Bool := digits (unsign s)

def numberChar (c : Char) : Bool := c.isAlphanum || c = '.' || c = '+' || c = '-'

def number (s : List Char) : Bool :=
  s.all numberChar &&
  let word := (unsign s).map Char.toLower
  if word = "inf".toList ∨ word = "infinity".toList ∨ word = "nan".toList then true
  else
    let mantissa := word.takeWhile (· ≠ 'e')
    let whole := mantissa.takeWhile (· ≠ '.')
    let fraction := (mantissa.drop whole.length).drop 1
    digits (whole ++ fraction) &&
      match word.drop mantissa.length with
      | [] => true
      | _ :: exponent => integer exponent

def labelSet (s : List Char) : Option (List (List Char × List Char) × List Char) :=
  match expect '\x7b' s with
  | some rest => labels (rest.length + 1) rest
  | none => some ([], s)

def sample (line : List Char) : Option Sample := do
  let (name, s) ← takeName metricChar line
  let (labels, s) ← labelSet s
  match (s.splitOnP isBlank).filter (· ≠ []) with
  | [value] => if number value then some ⟨name, labels, value⟩ else none
  | [value, time] => if number value && integer time then some ⟨name, labels, value⟩ else none
  | _ => none

def line (l : List Char) : Option (List Sample) :=
  match blanks l with
  | [] | '#' :: _ => some []
  | s => (sample s).map ([·])

def parse (text : List Char) : Option (List Sample) :=
  let lines := text.splitOn '\n'
  if lines.getLast? = some [] then (lines.mapM line).map List.flatten else none

def escapeChar (c : Char) : List Char :=
  if c = '\\' then ['\\', '\\'] else if c = '"' then ['\\', '"'] else if c = '\n' then ['\\', 'n'] else [c]

def escape (value : List Char) : List Char := value.flatMap escapeChar

def renderLabels : List (List Char × List Char) → List Char
  | [] => ['\x7d']
  | (name, value) :: more =>
    name ++ '=' :: '"' :: (escape value ++ '"' :: match more with
      | [] => ['\x7d']
      | more => ',' :: renderLabels more)

def Sample.render (s : Sample) : List Char := s.name ++ '\x7b' :: (renderLabels s.labels ++ ' ' :: s.value)

/-- A name that `takeName` takes. -/
def Name (chars : Char → Bool) (name : List Char) : Prop :=
  (∀ c ∈ name, chars c = true) ∧ ¬ (name = [] ∨ name.head?.any Char.isDigit = true)

structure Sample.Wf (s : Sample) : Prop where
  name : Name metricChar s.name
  labels : ∀ l ∈ s.labels, Name labelChar l.1
  value : number s.value = true

variable {s rest value : List Char}

theorem quoted_escape (value rest : List Char) :
    quoted (escape value ++ '"' :: rest) = some (value, rest) := by
  induction value with
  | nil => rfl
  | cons c value ih =>
    have hcons : escape (c :: value) = escapeChar c ++ escape value := rfl
    rw [hcons, List.append_assoc]
    unfold escapeChar
    split
    · next hc =>
      subst hc
      simp only [List.cons_append, List.nil_append, quoted, ih, Option.map_some]
    · next hbackslash =>
      split
      · next hc =>
        subst hc
        simp only [List.cons_append, List.nil_append, quoted, ih, Option.map_some]
      · next hquote =>
        split
        · next hc =>
          subst hc
          simp only [List.cons_append, List.nil_append, quoted, ih, Option.map_some]
        · next hlf =>
          rw [List.singleton_append, quoted, if_neg (not_or.mpr ⟨hbackslash, hlf⟩), ih, Option.map_some]
          · exact hquote
          · exact fun _ h _ => hbackslash h
          · exact fun _ h _ => hbackslash h
          · exact fun _ h _ => hbackslash h

theorem name_of_all {chars : Char → Bool} {name : List Char}
    (h : (name.all chars && !(name = [] || name.head?.any Char.isDigit)) = true) : Name chars name := by
  rw [Bool.and_eq_true] at h
  exact ⟨List.all_eq_true.mp h.1, by simpa using h.2⟩

theorem takeName_append {chars : Char → Bool} {name : List Char} (h : Name chars name) {c : Char}
    (hc : chars c = false) (rest : List Char) :
    takeName chars (name ++ c :: rest) = some (name, c :: rest) := by
  have htake : (name ++ c :: rest).takeWhile chars = name := by
    rw [List.takeWhile_append_of_pos h.1, List.takeWhile_cons_of_neg (by simp [hc]), List.append_nil]
  rw [takeName]
  simp only [htake]
  rw [if_neg h.2, List.drop_left]

theorem Name.exists_cons {chars : Char → Bool} {name : List Char} (h : Name chars name) :
    ∃ c more, name = c :: more ∧ chars c = true := by
  obtain ⟨c, more, rfl⟩ := List.exists_cons_of_ne_nil fun hnil => h.2 (.inl hnil)
  exact ⟨c, more, rfl, h.1 c (.head _)⟩

theorem metricChar_of_labelChar {c : Char} (h : labelChar c = true) : metricChar c = true := by
  rw [metricChar, h, Bool.true_or]

theorem of_metricChar {c : Char} (h : metricChar c = true) :
    isBlank c = false ∧ c ≠ '#' ∧ c ≠ '\x7b' ∧ c ≠ '\x7d' := by
  refine ⟨?_, ?_, ?_, ?_⟩
  · by_contra hblank
    rw [Bool.not_eq_false, isBlank, Bool.or_eq_true, decide_eq_true_eq, decide_eq_true_eq] at hblank
    rcases hblank with rfl | rfl
    · exact absurd h (by decide)
    · exact absurd h (by decide)
  · rintro rfl
    exact absurd h (by decide)
  · rintro rfl
    exact absurd h (by decide)
  · rintro rfl
    exact absurd h (by decide)

theorem blanks_cons {c : Char} (h : isBlank c = false) (rest : List Char) : blanks (c :: rest) = c :: rest :=
  List.dropWhile_cons_of_neg (by simp [h])

theorem expect_self {c : Char} (h : isBlank c = false) (rest : List Char) :
    expect c (c :: rest) = some rest := by
  rw [expect, blanks_cons h]
  exact if_pos rfl

theorem expect_of_ne {c d : Char} (h : isBlank d = false) (hne : d ≠ c) (rest : List Char) :
    expect c (d :: rest) = none := by
  rw [expect, blanks_cons h]
  exact if_neg hne

theorem label_render {name : List Char} (h : Name labelChar name) (value rest : List Char) :
    label (name ++ '=' :: '"' :: (escape value ++ '"' :: rest)) = some ((name, value), rest) := by
  have htake := takeName_append h (c := '=') (by decide) ('"' :: (escape value ++ '"' :: rest))
  obtain ⟨c, more, rfl, hc⟩ := h.exists_cons
  rw [List.cons_append] at htake
  rw [label, List.cons_append, blanks_cons (of_metricChar (metricChar_of_labelChar hc)).1, htake]
  simp only [Option.bind_eq_bind, Option.bind_some, expect_self (c := '=') (by decide),
    expect_self (c := '"') (by decide), quoted_escape]

theorem labels_render {ls : List (List Char × List Char)} (h : ∀ l ∈ ls, Name labelChar l.1) {fuel : Nat}
    (hfuel : ls.length < fuel) (rest : List Char) :
    labels fuel (renderLabels ls ++ rest) = some (ls, rest) := by
  induction ls generalizing fuel with
  | nil =>
    obtain ⟨fuel, rfl⟩ := Nat.exists_eq_succ_of_ne_zero (Nat.ne_of_gt hfuel)
    rw [renderLabels, List.singleton_append, labels, expect_self (by decide)]
  | cons l ls ih =>
    obtain ⟨fuel, rfl⟩ := Nat.exists_eq_succ_of_ne_zero (Nat.ne_of_gt (Nat.zero_lt_of_lt hfuel))
    obtain ⟨hname, hrest⟩ := List.forall_mem_cons.mp h
    obtain ⟨name, value⟩ := l
    obtain ⟨c, more, rfl, hc⟩ := hname.exists_cons
    obtain ⟨hblank, -, -, hbrace⟩ := of_metricChar (metricChar_of_labelChar hc)
    have hnone : ∀ tail : List Char, expect '\x7d' (c :: more ++ tail) = none :=
      fun tail => expect_of_ne hblank hbrace _
    cases ls with
    | nil =>
      have htext : renderLabels [(c :: more, value)] ++ rest =
          c :: more ++ '=' :: '"' :: (escape value ++ '"' :: '\x7d' :: rest) := by
        simp [renderLabels]
      rw [htext, labels, hnone, label_render hname]
      simp only [Option.bind_eq_bind, Option.bind_some, expect_self (c := '\x7d') (by decide)]
    | cons l ls =>
      have htext : renderLabels ((c :: more, value) :: l :: ls) ++ rest =
          c :: more ++ '=' :: '"' :: (escape value ++ '"' :: ',' :: (renderLabels (l :: ls) ++ rest)) := by
        simp [renderLabels]
      have hmore := ih hrest (Nat.lt_of_succ_lt_succ hfuel)
      rw [htext, labels, hnone, label_render hname]
      simp only [Option.bind_eq_bind, Option.bind_some, expect_self (c := ',') (by decide), hmore,
        expect_of_ne (c := '\x7d') (d := ',') (by decide) (by decide)]

theorem length_le_renderLabels (ls : List (List Char × List Char)) :
    ls.length ≤ (renderLabels ls).length := by
  induction ls with
  | nil => exact Nat.zero_le _
  | cons l ls ih =>
    cases ls with
    | nil =>
      simp only [renderLabels, List.length_append, List.length_cons]
      omega
    | cons l' ls =>
      rw [renderLabels]
      · simp only [List.length_append, List.length_cons] at ih ⊢
        omega
      · exact fun h => List.cons_ne_nil _ _ h

theorem bare_of_number (h : number value = true) : ∀ c ∈ value, isBlank c = false ∧ c ≠ '\n' ∧ c ≠ '"' := by
  intro c hc
  have hchar := List.all_eq_true.mp (Bool.and_eq_true_iff.mp h).1 c hc
  refine ⟨?_, ?_, ?_⟩
  · by_contra hblank
    rw [Bool.not_eq_false, isBlank, Bool.or_eq_true, decide_eq_true_eq, decide_eq_true_eq] at hblank
    rcases hblank with rfl | rfl
    · exact absurd hchar (by decide)
    · exact absurd hchar (by decide)
  · rintro rfl
    exact absurd hchar (by decide)
  · rintro rfl
    exact absurd hchar (by decide)

theorem number_of_digits (h : digits value = true) : number value = true := by
  obtain ⟨hne, hall⟩ := Bool.and_eq_true_iff.mp h
  have hdigit : ∀ c ∈ value, c.isDigit = true := List.all_eq_true.mp hall
  have hnot : ∀ {d : Char}, d.isDigit = false → ∀ c ∈ value, c ≠ d := by
    rintro d hd _ hc rfl
    exact absurd (hdigit _ hc) (by simp [hd])
  have hchars : value.all numberChar = true :=
    List.all_eq_true.mpr fun c hc => by simp [numberChar, Char.isAlphanum, hdigit c hc]
  have hunsign : unsign value = value := by
    unfold unsign
    split
    · exact absurd rfl (hnot (d := '+') (by decide) _ (.head _))
    · exact absurd rfl (hnot (d := '-') (by decide) _ (.head _))
    · rfl
  have hlower : value.map Char.toLower = value := by
    refine (List.map_congr_left fun c hc => ?_).trans (List.map_id value)
    have hnine : c.val.toNat ≤ 57 := (Char.isDigit_iff_toNat.mp (hdigit c hc)).2
    refine dif_neg fun hupper => ?_
    have hlo : 65 ≤ c.val.toNat := UInt32.le_iff_toNat_le.mp hupper.1
    omega
  have hword : ∀ {c : Char} {rest : List Char}, c.isDigit = false → value ≠ c :: rest := by
    rintro c rest hc rfl
    exact hnot hc c (.head _) rfl
  have hmantissa : value.takeWhile (· ≠ 'e') = value :=
    List.takeWhile_eq_self_iff.mpr fun c hc => decide_eq_true (hnot (by decide) c hc)
  have hwhole : value.takeWhile (· ≠ '.') = value :=
    List.takeWhile_eq_self_iff.mpr fun c hc => decide_eq_true (hnot (by decide) c hc)
  rw [number, hchars, Bool.true_and, hunsign, hlower, if_neg]
  · simp only [hmantissa, hwhole, List.drop_length, List.drop_nil, List.append_nil, h, Bool.and_self]
  · rintro (h | h | h)
    · exact hword (by decide) h
    · exact hword (by decide) h
    · exact hword (by decide) h

theorem splitOnP_number (h : number value = true) :
    ((' ' :: value).splitOnP isBlank).filter (· ≠ []) = [value] := by
  have hne : value ≠ [] := by
    rintro rfl
    exact absurd h (by decide)
  have hsplit : (' ' :: value).splitOnP isBlank = [[], value] := by
    rw [← List.nil_append (' ' :: value),
      List.splitOnP_append_cons_of_forall_mem (List.forall_mem_nil _) ' ' rfl value,
      List.splitOnP_eq_singleton fun c hc => (bare_of_number h c hc).1]
  rw [hsplit]
  simp [hne]

theorem line_render {s : Sample} (h : s.Wf) : line s.render = some [s] := by
  obtain ⟨c, more, hname, hc⟩ := h.name.exists_cons
  obtain ⟨hblank, hhash, hbrace, -⟩ := of_metricChar hc
  have htake := takeName_append h.name (c := '\x7b') (by decide) (renderLabels s.labels ++ ' ' :: s.value)
  have hfuel : s.labels.length < (renderLabels s.labels ++ ' ' :: s.value).length + 1 := by
    have hle := length_le_renderLabels s.labels
    simp only [List.length_append]
    omega
  have hlabels := labels_render h.labels hfuel (' ' :: s.value)
  have hsample : sample s.render = some s := by
    rw [sample, Sample.render, htake]
    simp only [Option.bind_eq_bind, Option.bind_some, labelSet, expect_self (c := '\x7b') (by decide),
      hlabels, splitOnP_number h.value, h.value, if_true]
  have hrender : s.render = c :: (more ++ '\x7b' :: (renderLabels s.labels ++ ' ' :: s.value)) := by
    rw [Sample.render, hname, List.cons_append]
  rw [hrender] at hsample
  rw [hrender, line, blanks_cons hblank]
  split
  · next heq => cases heq
  · next heq => exact absurd (List.cons.inj heq).1 hhash
  · rw [hsample, Option.map_some]

def joinLines (ls : List (List Char)) : List Char := ls.flatMap (· ++ ['\n'])

theorem joinLines_cons (l : List Char) (ls : List (List Char)) :
    joinLines (l :: ls) = l ++ '\n' :: joinLines ls := by
  rw [joinLines, List.flatMap_cons, List.append_assoc, List.singleton_append]
  rfl

theorem intercalate_append {ls : List (List Char)} (h : ls ≠ []) :
    ['\n'].intercalate ls ++ ['\n'] = joinLines ls := by
  induction ls with
  | nil => exact absurd rfl h
  | cons l ls ih =>
    cases ls with
    | nil => simp [joinLines]
    | cons l' ls =>
      rw [List.intercalate_cons_cons, joinLines_cons, ← ih (List.cons_ne_nil _ _)]
      simp

theorem splitOn_joinLines (ls : List (List Char)) :
    (joinLines ls).splitOn '\n' = ls.flatMap (List.splitOn '\n') ++ [[]] := by
  induction ls with
  | nil => rfl
  | cons l ls ih =>
    rw [joinLines_cons, List.splitOn_append_cons_self, ih, List.flatMap_cons, List.append_assoc]

theorem parse_append_cons {l : List Char} (hl : '\n' ∉ l) (text : List Char) :
    parse (l ++ '\n' :: text) = (line l).bind fun xs => (parse text).map (xs ++ ·) := by
  have hsplit : (l ++ '\n' :: text).splitOn '\n' = l :: text.splitOn '\n' :=
    List.splitOn_append_cons_self_of_not_mem hl text
  have hlast : (l :: text.splitOn '\n').getLast? = (text.splitOn '\n').getLast? := by
    obtain ⟨l', ls, hls⟩ := List.exists_cons_of_ne_nil (List.splitOn_ne_nil '\n' text)
    rw [hls, List.getLast?_cons_cons]
  rw [parse, hsplit, hlast, parse]
  by_cases h : (text.splitOn '\n').getLast? = some []
  · rw [if_pos h, if_pos h, List.mapM_cons]
    cases line l with
    | none => rfl
    | some xs =>
      cases (text.splitOn '\n').mapM line with
      | none => rfl
      | some out => rfl
  · rw [if_neg h, if_neg h]
    cases line l with
    | none => rfl
    | some xs => rfl

theorem line_comment (l : List Char) : line ('#' :: l) = some [] := by
  rw [line, blanks_cons (by decide)]
  rfl

theorem not_mem_escape (value : List Char) : '\n' ∉ escape value := by
  intro h
  obtain ⟨c, -, hc⟩ := List.mem_flatMap.mp h
  unfold escapeChar at hc
  split at hc
  · exact absurd hc (by decide)
  · split at hc
    · exact absurd hc (by decide)
    · split at hc
      · exact absurd hc (by decide)
      · next hlf => exact hlf (List.mem_singleton.mp hc).symm

theorem not_mem_renderLabels {ls : List (List Char × List Char)} (h : ∀ l ∈ ls, Name labelChar l.1) :
    '\n' ∉ renderLabels ls := by
  induction ls with
  | nil => decide
  | cons l ls ih =>
    obtain ⟨hname, hrest⟩ := List.forall_mem_cons.mp h
    have hlf : '\n' ∉ l.1 := fun hmem => absurd (hname.1 _ hmem) (by decide)
    cases ls with
    | nil => simp [renderLabels, hlf, not_mem_escape]
    | cons l' ls => simpa [renderLabels, hlf, not_mem_escape] using ih hrest

theorem Sample.Wf.not_mem_render {x : Sample} (h : x.Wf) : '\n' ∉ x.render := by
  have hname : '\n' ∉ x.name := fun hmem => absurd (h.name.1 _ hmem) (by decide)
  have hvalue : '\n' ∉ x.value := fun hmem => (bare_of_number h.value _ hmem).2.1 rfl
  simp [Sample.render, hname, hvalue, not_mem_renderLabels h.labels]

theorem parse_render {comments : List (List Char)} {xs : List Sample}
    (hcomments : ∀ l ∈ comments, '\n' ∉ l ∧ line l = some []) (hxs : ∀ x ∈ xs, x.Wf) :
    parse (joinLines (comments ++ xs.map Sample.render)) = some xs := by
  induction comments with
  | nil =>
    rw [List.nil_append]
    induction xs with
    | nil => rfl
    | cons x xs ih =>
      obtain ⟨hx, hxs⟩ := List.forall_mem_cons.mp hxs
      rw [List.map_cons, joinLines_cons, parse_append_cons hx.not_mem_render, line_render hx, ih hxs]
      rfl
  | cons l comments ih =>
    obtain ⟨⟨hlf, hline⟩, hcomments⟩ := List.forall_mem_cons.mp hcomments
    rw [List.cons_append, joinLines_cons, parse_append_cons hlf, hline, ih hcomments]
    rfl

end ProxySplit.Lib.Exposition
