import ProxySplit.Lib.Pieces
import Mathlib.Data.List.DropRight

namespace ProxySplit.PyText

open Lib

/-- The zeros of the Unicode category Nd.  The nine digits that follow each are in it too. -/
def zeros : List Nat :=
  [0x30, 0x660, 0x6f0, 0x7c0, 0x966, 0x9e6, 0xa66, 0xae6, 0xb66, 0xbe6, 0xc66, 0xce6, 0xd66,
    0xde6, 0xe50, 0xed0, 0xf20, 0x1040, 0x1090, 0x17e0, 0x1810, 0x1946, 0x19d0, 0x1a80, 0x1a90,
    0x1b50, 0x1bb0, 0x1c40, 0x1c50, 0xa620, 0xa8d0, 0xa900, 0xa9d0, 0xa9f0, 0xaa50, 0xabf0,
    0xff10, 0x104a0, 0x10d30, 0x11066, 0x110f0, 0x11136, 0x111d0, 0x112f0, 0x11450, 0x114d0,
    0x11650, 0x116c0, 0x11730, 0x118e0, 0x11950, 0x11c50, 0x11d50, 0x11da0, 0x16a60, 0x16ac0,
    0x16b50, 0x1d7ce, 0x1d7d8, 0x1d7e2, 0x1d7ec, 0x1d7f6, 0x1e140, 0x1e2f0, 0x1e950, 0x1fbf0]

def decimal? (c : Char) : Option Nat :=
  (zeros.find? fun z => z ≤ c.toNat ∧ c.toNat < z + 10).map (c.toNat - ·)

def isDigit (c : Char) : Bool := (decimal? c).isSome

def spaces : List Nat :=
  [0x9, 0xa, 0xb, 0xc, 0xd, 0x1c, 0x1d, 0x1e, 0x1f, 0x20, 0x85, 0xa0, 0x1680, 0x2000, 0x2001,
    0x2002, 0x2003, 0x2004, 0x2005, 0x2006, 0x2007, 0x2008, 0x2009, 0x200a, 0x2028, 0x2029,
    0x202f, 0x205f, 0x3000]

/-- `str.isspace` of one character. -/
def isSpace (c : Char) : Bool := c.toNat ∈ spaces

def stripOf (space : Char → Bool) (s : List Char) : List Char :=
  ((s.dropWhile space).reverse.dropWhile space).reverse

def strip (s : List Char) : List Char := stripOf isSpace s

/-- What `int` and `float` leave out around a number.  They ask the C function for a character below 127, and
that knows nothing of the four separators. -/
def isNumberSpace (c : Char) : Bool := isSpace c && !(0x1c ≤ c.toNat && c.toNat ≤ 0x1f)

def digitsValue (ds : List Char) : Nat := ds.foldl (fun n c => 10 * n + (decimal? c).getD 0) 0

/-- `sys.int_info.default_max_str_digits`. -/
def maxStrDigits : Nat := 4300

/-- The digits of a literal in which single underscores may stand between digits. -/
def digitsOf : List Char → Option (List Char)
  | [] => none
  | c :: rest =>
    if isDigit c then
      match rest with
      | [] => some [c]
      | '_' :: rest => (digitsOf rest).map (c :: ·)
      | d :: rest => (digitsOf (d :: rest)).map (c :: ·)
    else none

/-- The value of a literal without a sign.  `none` is `ValueError`. -/
def natLiteral (s : List Char) : Option Nat :=
  (digitsOf s).bind fun ds => if ds.length ≤ maxStrDigits then some (digitsValue ds) else none

/-- `int(s)`.  `none` is `ValueError`. -/
def int (s : List Char) : Option Int :=
  match stripOf isNumberSpace s with
  | '+' :: rest => (natLiteral rest).map Int.ofNat
  | '-' :: rest => (natLiteral rest).map fun n => -Int.ofNat n
  | rest => (natLiteral rest).map Int.ofNat

theorem spaces_disjoint_zeros : ∀ z ∈ zeros, ∀ i < 10, z + i ∉ spaces := by decide +kernel

theorem not_isSpace_of_isDigit {c : Char} (h : isDigit c = true) : isSpace c = false := by
  simp only [isDigit, decimal?, Option.isSome_map, List.find?_isSome, Bool.decide_and,
    Bool.and_eq_true, decide_eq_true_eq] at h
  obtain ⟨z, hz, hle, hlt⟩ := h
  have hout := spaces_disjoint_zeros z hz (c.toNat - z) (by omega)
  rw [Nat.add_sub_cancel' hle] at hout
  exact decide_eq_false hout

theorem not_isNumberSpace_of_isSpace {c : Char} (h : isSpace c = false) : isNumberSpace c = false := by
  rw [isNumberSpace, h, Bool.false_and]

theorem isDigit_of_ascii {c : Char} (h : c.isDigit = true) : isDigit c = true := by
  simp only [Char.isDigit, Bool.and_eq_true, decide_eq_true_eq] at h
  have hlo : 0x30 ≤ c.toNat := UInt32.le_iff_toNat_le.mp h.1
  have hhi : c.toNat ≤ 0x39 := UInt32.le_iff_toNat_le.mp h.2
  rw [isDigit, decimal?, Option.isSome_map, List.find?_isSome]
  exact ⟨0x30, .head _, decide_eq_true ⟨hlo, by omega⟩⟩

theorem zeros_not_upper : ∀ z ∈ zeros, z + 10 ≤ 65 ∨ 90 < z := by decide

theorem toLower_of_isDigit {c : Char} (h : isDigit c = true) : c.toLower = c := by
  simp only [isDigit, decimal?, Option.isSome_map, List.find?_isSome, Bool.decide_and,
    Bool.and_eq_true, decide_eq_true_eq] at h
  obtain ⟨z, hz, hle, hlt⟩ := h
  have hout := zeros_not_upper z hz
  have hn : c.toNat = c.val.toNat := rfl
  refine dif_neg ?_
  rintro ⟨hlo, hhi⟩
  have hlo' : 65 ≤ c.val.toNat := UInt32.le_iff_toNat_le.mp hlo
  have hhi' : c.val.toNat ≤ 90 := UInt32.le_iff_toNat_le.mp hhi
  omega

theorem isDigit_underscore : isDigit '_' = false := by decide

theorem isDigit_dash : isDigit '-' = false := by decide

theorem isDigit_plus : isDigit '+' = false := by decide

theorem digitsOf_eq_self {ds : List Char} (hne : ds ≠ []) (h : ∀ c ∈ ds, isDigit c = true) :
    digitsOf ds = some ds := by
  induction ds with
  | nil => exact absurd rfl hne
  | cons c rest ih =>
    have hc := h c (by simp)
    cases rest with
    | nil => simp [digitsOf, hc]
    | cons d rest =>
      have hd : d ≠ '_' := by
        rintro rfl
        have := h '_' (by simp)
        simp [isDigit_underscore] at this
      have hrest := ih (by simp) fun x hx => h x (List.mem_cons_of_mem _ hx)
      rw [digitsOf, if_pos hc, hrest]
      · rfl
      · exact hd

theorem stripOf_eq_self {space : Char → Bool} {s : List Char} (h : ∀ c ∈ s, space c = false) :
    stripOf space s = s := by
  have hdrop : ∀ l : List Char, (∀ c ∈ l, space c = false) → l.dropWhile space = l := by
    intro l hl
    cases l with
    | nil => rfl
    | cons c l =>
      rw [List.dropWhile_cons_of_neg]
      simp [hl c (by simp)]
  rw [stripOf, hdrop s h, hdrop s.reverse fun c hc => h c (List.mem_reverse.mp hc),
    List.reverse_reverse]

theorem strip_eq_self {s : List Char} (h : ∀ c ∈ s, isSpace c = false) : strip s = s :=
  stripOf_eq_self h

theorem stripOf_of_isDigit {ds : List Char} (h : ∀ c ∈ ds, isDigit c = true) :
    stripOf isNumberSpace ds = ds :=
  stripOf_eq_self fun c hc => not_isNumberSpace_of_isSpace (not_isSpace_of_isDigit (h c hc))

theorem isSpace_of_strip {s l : List Char} {c : Char} (h : strip s = l ++ [c]) :
    isSpace c = false := by
  have hdrop : (s.dropWhile isSpace).reverse.dropWhile isSpace = c :: l.reverse := by
    rw [← List.reverse_reverse (List.dropWhile _ _), ← stripOf, ← strip, h, List.reverse_append]
    rfl
  have hhead := List.head?_dropWhile_not isSpace (s.dropWhile isSpace).reverse
  simpa [hdrop] using hhead

theorem int_of_isDigit {ds : List Char} (hne : ds ≠ []) (h : ∀ c ∈ ds, isDigit c = true) :
    int ds = if ds.length ≤ maxStrDigits then some (digitsValue ds : Int) else none := by
  have hnat : natLiteral ds = if ds.length ≤ maxStrDigits then some (digitsValue ds) else none := by
    simp [natLiteral, digitsOf_eq_self hne h]
  unfold int
  rw [stripOf_of_isDigit h]
  split
  · have := h '+' (by simp)
    simp [isDigit_plus] at this
  · have := h '-' (by simp)
    simp [isDigit_dash] at this
  · rw [hnat]
    split <;> rfl

theorem toLower_cases (c : Char) :
    c.toLower = c ∨ 65 ≤ c.toNat ∧ c.toNat ≤ 90 ∧ c.toLower.toNat = c.toNat + 32 := by
  unfold Char.toLower
  split
  · next h =>
    have hlo : 65 ≤ c.val.toNat := UInt32.le_iff_toNat_le.mp h.1
    have hhi : c.val.toNat ≤ 90 := UInt32.le_iff_toNat_le.mp h.2
    refine .inr ⟨hlo, hhi, ?_⟩
    change (c.val + 32).toNat = c.val.toNat + 32
    rw [UInt32.toNat_add, Nat.mod_eq_of_lt]
    · rfl
    · change c.val.toNat + 32 < 2 ^ 32
      omega
  · exact .inl rfl

theorem not_letter_of_mem_spaces : ∀ n ∈ spaces, n < 65 ∨ 122 < n := by decide

theorem isSpace_toLower (c : Char) : isSpace c.toLower = isSpace c := by
  rcases toLower_cases c with h | ⟨hlo, hhi, h⟩
  · rw [h]
  · have hout : ∀ d : Char, 65 ≤ d.toNat → d.toNat ≤ 122 → isSpace d = false := by
      intro d hlo hhi
      refine decide_eq_false fun hmem => ?_
      rcases not_letter_of_mem_spaces _ hmem with hlt | hlt
      · omega
      · omega
    rw [hout c hlo (by omega), hout c.toLower (by omega) (by omega)]

theorem toLower_eq_comma_iff (c : Char) : c.toLower = ',' ↔ c = ',' := by
  rcases toLower_cases c with h | ⟨hlo, hhi, h⟩
  · rw [h]
  · have hcomma : Char.toNat ',' = 44 := rfl
    constructor
    · intro heq
      rw [heq, hcomma] at h
      omega
    · intro heq
      rw [heq, hcomma] at hlo
      omega

theorem strip_map_toLower (s : List Char) : strip (s.map Char.toLower) = (strip s).map Char.toLower := by
  have hspace : isSpace ∘ Char.toLower = isSpace := funext isSpace_toLower
  simp only [strip, stripOf, List.dropWhile_map, ← List.map_reverse, hspace]

theorem infix_strip_iff {w s : List Char} (h : ∀ c ∈ w, isSpace c = false) : w <:+: strip s ↔ w <:+: s := by
  have hrev : ∀ c ∈ w.reverse, isSpace c = false := fun c hc => h c (List.mem_reverse.mp hc)
  rw [strip, stripOf, ← List.reverse_infix, List.reverse_reverse, infix_dropWhile_iff hrev, List.reverse_infix,
    infix_dropWhile_iff h]

theorem mem_of_mem_strip {s : List Char} {c : Char} (h : c ∈ strip s) : c ∈ s :=
  List.dropWhile_subset _ (List.mem_reverse.mp (List.dropWhile_subset _ (List.mem_reverse.mp h)))

theorem strip_strip (s : List Char) : strip (strip s) = strip s := by
  have hprefix : strip s <+: s.dropWhile isSpace := by
    rw [← List.reverse_suffix, strip, stripOf, List.reverse_reverse]
    exact List.dropWhile_suffix _
  have hfirst : (strip s).dropWhile isSpace = strip s := by
    cases hs : strip s with
    | nil => rfl
    | cons c l =>
      rw [hs] at hprefix
      have hhead := List.head?_dropWhile_not isSpace s
      obtain ⟨t, ht⟩ := hprefix
      rw [← ht, List.cons_append, List.head?_cons] at hhead
      exact List.dropWhile_cons_of_neg (by simpa using hhead)
  have hlast : (strip s).reverse.dropWhile isSpace = (strip s).reverse := by
    rw [strip, stripOf, List.reverse_reverse, List.dropWhile_idempotent]
  rw [strip, stripOf, hfirst, hlast, List.reverse_reverse]

end ProxySplit.PyText
