import Mathlib.Data.List.Basic

universe u

namespace ProxySplit.Lib

variable {α : Type u}

section Lines

variable [DecidableEq α]

def cutLine (sep : α) : List α → Option (List α × List α)
  | [] => none
  | c :: cs =>
    if c = sep then some ([c], cs) else (cutLine sep cs).map fun cut => (c :: cut.1, cut.2)

section CutLine

variable {sep : α} {bs line rest : List α}

theorem eq_append_of_cutLine (h : cutLine sep bs = some (line, rest)) : bs = line ++ rest := by
  induction bs generalizing line rest with
  | nil => cases h
  | cons c cs ih =>
    rw [cutLine] at h
    split at h
    · cases h
      rfl
    · obtain ⟨⟨l, r⟩, hcut, hout⟩ := Option.map_eq_some_iff.mp h
      cases hout
      rw [ih hcut]
      rfl

theorem getLast?_of_cutLine (h : cutLine sep bs = some (line, rest)) : line.getLast? = some sep := by
  induction bs generalizing line rest with
  | nil => cases h
  | cons c cs ih =>
    rw [cutLine] at h
    split at h
    · next hc =>
      cases h
      rw [hc]
      rfl
    · obtain ⟨⟨l, r⟩, hcut, hout⟩ := Option.map_eq_some_iff.mp h
      cases hout
      have hlast := ih hcut
      cases l with
      | nil => cases hlast
      | cons d l => rw [List.getLast?_cons_cons, hlast]

theorem ne_nil_of_cutLine (h : cutLine sep bs = some (line, rest)) : line ≠ [] := by
  rintro rfl
  cases getLast?_of_cutLine h

theorem cutLine_append (h : cutLine sep bs = some (line, rest)) (more : List α) :
    cutLine sep (bs ++ more) = some (line, rest ++ more) := by
  induction bs generalizing line rest with
  | nil => cases h
  | cons c cs ih =>
    rw [cutLine] at h
    rw [List.cons_append, cutLine]
    split at h
    · next hc =>
      cases h
      rw [if_pos hc]
    · next hc =>
      obtain ⟨⟨l, r⟩, hcut, hout⟩ := Option.map_eq_some_iff.mp h
      cases hout
      rw [if_neg hc, ih hcut]
      rfl

theorem cutLine_self (h : cutLine sep bs = some (line, rest)) : cutLine sep line = some (line, []) := by
  induction bs generalizing line rest with
  | nil => cases h
  | cons c cs ih =>
    rw [cutLine] at h
    split at h
    · next hc =>
      cases h
      rw [cutLine, if_pos hc]
    · next hc =>
      obtain ⟨⟨l, r⟩, hcut, hout⟩ := Option.map_eq_some_iff.mp h
      cases hout
      rw [cutLine, if_neg hc, ih hcut]
      rfl

theorem cutLine_line (h : cutLine sep bs = some (line, rest)) (more : List α) :
    cutLine sep (line ++ more) = some (line, more) := cutLine_append (cutLine_self h) more

end CutLine

/-- The lines up to and including the first blank one, and the rest, behind the start of a line. -/
def cutBlock (sep : α) (blank : List α → Prop) [DecidablePred blank] (line : List α) :
    List α → Option (List α × List α)
  | [] => none
  | c :: cs =>
    if c = sep then
      if blank (line ++ [c]) then some (line ++ [c], cs)
      else (cutBlock sep blank [] cs).map fun cut => (line ++ c :: cut.1, cut.2)
    else cutBlock sep blank (line ++ [c]) cs

section CutBlock

variable {sep : α} {blank : List α → Prop} [DecidablePred blank] {bs line rest : List α}

theorem cutBlock_of_cutLine (h : cutLine sep bs = some (line, rest)) (start : List α) :
    cutBlock sep blank start bs =
      if blank (start ++ line) then some (start ++ line, rest)
      else (cutBlock sep blank [] rest).map fun cut => (start ++ line ++ cut.1, cut.2) := by
  induction bs generalizing start line rest with
  | nil => cases h
  | cons c cs ih =>
    rw [cutLine] at h
    rw [cutBlock]
    split at h
    · next hc =>
      cases h
      rw [if_pos hc]
      simp only [List.append_assoc, List.singleton_append]
    · next hc =>
      obtain ⟨⟨l, r⟩, hcut, hout⟩ := Option.map_eq_some_iff.mp h
      cases hout
      have hassoc : start ++ [c] ++ l = start ++ c :: l := by
        rw [List.append_assoc, List.singleton_append]
      rw [if_neg hc, ih hcut, hassoc]

theorem cutBlock_of_no_line (h : cutLine sep bs = none) (start : List α) :
    cutBlock sep blank start bs = none := by
  induction bs generalizing start with
  | nil => rfl
  | cons c cs ih =>
    rw [cutLine] at h
    rw [cutBlock]
    split at h
    · cases h
    · next hc => rw [if_neg hc, ih (Option.map_eq_none_iff.mp h)]

theorem cutBlock_append {block : List α} {start : List α}
    (h : cutBlock sep blank start bs = some (block, rest)) (more : List α) :
    cutBlock sep blank start (bs ++ more) = some (block, rest ++ more) := by
  induction bs generalizing start block with
  | nil => cases h
  | cons c cs ih =>
    rw [cutBlock] at h
    rw [List.cons_append, cutBlock]
    split at h
    · next hc =>
      rw [if_pos hc]
      split at h
      · next hblank =>
        cases h
        rw [if_pos hblank]
      · next hblank =>
        obtain ⟨⟨b, r⟩, hcut, hout⟩ := Option.map_eq_some_iff.mp h
        cases hout
        rw [if_neg hblank, ih hcut]
        rfl
    · next hc => rw [if_neg hc, ih h]

theorem eq_append_of_cutBlock {block start : List α}
    (h : cutBlock sep blank start bs = some (block, rest)) : start ++ bs = block ++ rest := by
  induction bs generalizing start block with
  | nil => cases h
  | cons c cs ih =>
    rw [cutBlock] at h
    split at h
    · split at h
      · cases h
        rw [List.append_assoc]
        rfl
      · obtain ⟨⟨b, r⟩, hcut, hout⟩ := Option.map_eq_some_iff.mp h
        cases hout
        have hrest := ih hcut
        rw [List.nil_append] at hrest
        rw [hrest, List.append_assoc]
        rfl
    · have hrest := ih h
      rwa [List.append_assoc] at hrest

theorem exists_of_cutBlock {block start : List α} (h : cutBlock sep blank start bs = some (block, rest)) :
    ∃ mid, block = start ++ mid ∧ cutBlock sep blank start mid = some (block, []) := by
  induction bs generalizing start block with
  | nil => cases h
  | cons c cs ih =>
    rw [cutBlock] at h
    split at h
    · next hc =>
      split at h
      · next hblank =>
        cases h
        exact ⟨[c], rfl, by rw [cutBlock, if_pos hc, if_pos hblank]⟩
      · next hblank =>
        obtain ⟨⟨b, r⟩, hcut, hout⟩ := Option.map_eq_some_iff.mp h
        cases hout
        obtain ⟨mid, hmid, hagain⟩ := ih hcut
        rw [List.nil_append] at hmid
        subst hmid
        exact ⟨c :: b, rfl, by rw [cutBlock, if_pos hc, if_neg hblank, hagain]; rfl⟩
    · next hc =>
      obtain ⟨mid, hmid, hagain⟩ := ih h
      refine ⟨c :: mid, by rw [hmid, List.append_assoc]; rfl, ?_⟩
      rw [cutBlock, if_neg hc, hagain]

theorem cutBlock_self {block : List α} (h : cutBlock sep blank [] bs = some (block, rest)) :
    cutBlock sep blank [] block = some (block, []) := by
  obtain ⟨mid, hmid, hagain⟩ := exists_of_cutBlock h
  rw [List.nil_append] at hmid
  rwa [← hmid] at hagain

end CutBlock

end Lines

structure StreamReader (α : Type u) where
  buffer : List α
  eof : Bool

namespace StreamReader

inductive Answer (α : Type u)
  | data (bs : List α) (r : StreamReader α)
  | wait
  | overrun

def feed (r : StreamReader α) (bs : List α) : StreamReader α := { r with buffer := r.buffer ++ bs }

def feedEof (r : StreamReader α) : StreamReader α := { r with eof := true }

/-- A line that is longer than `limit` is not returned. -/
def readline [DecidableEq α] (sep : α) (limit : Nat) (r : StreamReader α) : Answer α :=
  match cutLine sep r.buffer with
  | some (line, rest) =>
    if limit + 1 < line.length then .overrun else .data line { r with buffer := rest }
  | none =>
    if limit < r.buffer.length then .overrun
    else if r.eof then .data r.buffer { r with buffer := [] }
    else .wait

def read (n : Nat) (r : StreamReader α) : Answer α :=
  if r.buffer.isEmpty ∧ r.eof = false then .wait
  else .data (r.buffer.take n) { r with buffer := r.buffer.drop n }

variable {sep : α} {limit n : Nat} {r r' : StreamReader α} {bs : List α}

section Readline

variable [DecidableEq α]

theorem readline_cases (h : r.readline sep limit = .data bs r') : r'.eof = r.eof ∧
    ((cutLine sep r.buffer = some (bs, r'.buffer) ∧ bs.length ≤ limit + 1) ∨
      (cutLine sep r.buffer = none ∧ r.eof = true ∧ bs = r.buffer ∧ r'.buffer = [] ∧
        bs.length ≤ limit)) := by
  unfold readline at h
  split at h
  · next line rest hcut =>
    split at h
    · cases h
    · next hlen =>
      cases h
      exact ⟨rfl, .inl ⟨hcut, Nat.not_lt.mp hlen⟩⟩
  · next hcut =>
    split at h
    · cases h
    · next hlen =>
      split at h
      · next heof =>
        cases h
        exact ⟨rfl, .inr ⟨hcut, heof, rfl, rfl, Nat.not_lt.mp hlen⟩⟩
      · cases h

theorem readline_append (h : r.readline sep limit = .data bs r') : bs ++ r'.buffer = r.buffer := by
  obtain ⟨-, ⟨hcut, -⟩ | ⟨-, -, rfl, hnil, -⟩⟩ := readline_cases h
  · exact (eq_append_of_cutLine hcut).symm
  · rw [hnil, List.append_nil]

end Readline

theorem read_cases (h : r.read n = .data bs r') :
    r'.eof = r.eof ∧ bs = r.buffer.take n ∧ r'.buffer = r.buffer.drop n ∧
      (r.buffer = [] → r.eof = true) := by
  unfold read at h
  split at h
  · cases h
  · next hmore =>
    cases h
    exact ⟨rfl, rfl, rfl, fun hnil => by simpa [hnil] using hmore⟩

theorem read_append (h : r.read n = .data bs r') : bs ++ r'.buffer = r.buffer := by
  obtain ⟨-, rfl, hrest, -⟩ := read_cases h
  rw [hrest, List.take_append_drop]

end StreamReader

end ProxySplit.Lib
