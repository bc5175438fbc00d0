import ProxySplit.PyText
import ProxySplit.SessionPool

namespace ProxySplit

namespace PyText

/-- The characters that are digits for `str.isdigit` though not for `\d`, as first and last ones. -/
def otherDigits : List (Nat × Nat) :=
  [(0xb2, 0xb3), (0xb9, 0xb9), (0x1369, 0x1371), (0x19da, 0x19da), (0x2070, 0x2070),
    (0x2074, 0x2079), (0x2080, 0x2089), (0x2460, 0x2468), (0x2474, 0x247c), (0x2488, 0x2490),
    (0x24ea, 0x24ea), (0x24f5, 0x24fd), (0x24ff, 0x24ff), (0x2776, 0x277e), (0x2780, 0x2788),
    (0x278a, 0x2792), (0x10a40, 0x10a43), (0x10e60, 0x10e68), (0x11052, 0x1105a),
    (0x1f100, 0x1f10a)]

/-- `str.isdigit`. -/
def allDigits (s : List Char) : Bool :=
  s ≠ [] && s.all fun c =>
    isDigit c || otherDigits.any fun r => r.1 ≤ c.toNat && c.toNat ≤ r.2

def words {α : Type} (space : α → Bool) (word : List α) : List α → List (List α)
  | [] => if word.isEmpty then [] else [word]
  | c :: cs =>
    if space c then
      if word.isEmpty then words space [] cs else word :: words space [] cs
    else words space (word ++ [c]) cs

def split (s : List Char) : List (List Char) := words isSpace [] s

/-- The first and the last part of `s.rpartition(":")`. -/
def rpartition (s : List Char) : List Char × List Char :=
  if ':' ∈ s then
    ((s.reverse.dropWhile (· ≠ ':')).tail.reverse, (s.reverse.takeWhile (· ≠ ':')).reverse)
  else ([], s)

def isLineBreak (c : Char) : Bool :=
  c.toNat ∈ [0xa, 0xb, 0xc, 0xd, 0x1c, 0x1d, 0x1e, 0x85, 0x2028, 0x2029]

def linesFrom (line : List Char) : List Char → List (List Char)
  | [] => if line.isEmpty then [] else [line]
  | '\r' :: '\n' :: cs => line :: linesFrom [] cs
  | c :: cs => if isLineBreak c then line :: linesFrom [] cs else linesFrom (line ++ [c]) cs

def splitlines (s : List Char) : List (List Char) := linesFrom [] s

theorem linesFrom_append {s : List Char} (h : s.getLast? = some '\n') (line t : List Char) :
    linesFrom line (s ++ t) = linesFrom line s ++ linesFrom [] t := by
  fun_induction linesFrom line s with
  | case1 => cases h
  | case2 => cases h
  | case3 line cs ih =>
    cases cs with
    | nil => rfl
    | cons c cs =>
      rw [List.getLast?_cons_cons, List.getLast?_cons_cons] at h
      rw [List.cons_append, List.cons_append, linesFrom, ih h, List.cons_append]
  | case4 line c cs hcr hbreak ih =>
    cases cs with
    | nil =>
      cases h
      rfl
    | cons d cs =>
      rw [List.getLast?_cons_cons] at h
      rw [List.cons_append, linesFrom, if_pos hbreak, ih h, List.cons_append]
      intro cs' hc hcs
      exact hcr cs hc (by rw [List.cons_append, List.cons.injEq] at hcs; rw [hcs.1])
  | case5 line c cs hcr hbreak ih =>
    cases cs with
    | nil =>
      cases h
      exact absurd rfl hbreak
    | cons d cs =>
      rw [List.getLast?_cons_cons] at h
      rw [List.cons_append, linesFrom, if_neg hbreak, ih h]
      intro cs' hc hcs
      exact hcr cs hc (by rw [List.cons_append, List.cons.injEq] at hcs; rw [hcs.1])

theorem linesFrom_ne_nil {line s : List Char} (h : line ≠ [] ∨ s ≠ []) : linesFrom line s ≠ [] := by
  fun_induction linesFrom line s with
  | case1 line hnil => simp_all
  | case2 line hnil => exact List.cons_ne_nil _ _
  | case3 line cs ih => exact List.cons_ne_nil _ _
  | case4 line c cs hcr hbreak ih => exact List.cons_ne_nil _ _
  | case5 line c cs hcr hbreak ih =>
    exact ih (.inl (List.append_ne_nil_of_right_ne_nil _ (List.cons_ne_nil _ _)))

theorem linesFrom_plain {s : List Char} (h : ∀ c ∈ s, isLineBreak c = false) (line rest : List Char) :
    linesFrom line (s ++ '\r' :: '\n' :: rest) = (line ++ s) :: linesFrom [] rest := by
  induction s generalizing line with
  | nil => rw [List.nil_append, linesFrom, List.append_nil]
  | cons c s ih =>
    obtain ⟨hc, hs⟩ := List.forall_mem_cons.mp h
    rw [List.cons_append, linesFrom, hc, if_neg (by decide), ih hs]
    · simp
    · rintro cs rfl
      cases hc

theorem length_linesFrom {s : List Char} (h : '\r' ∉ s) (line rest : List Char) :
    (linesFrom line (s ++ '\r' :: '\n' :: rest)).length =
      s.countP isLineBreak + 1 + (linesFrom [] rest).length := by
  induction s generalizing line with
  | nil =>
    rw [List.nil_append, linesFrom, List.length_cons, List.countP_nil]
    omega
  | cons c s ih =>
    obtain ⟨hc, hs⟩ := not_or.mp (mt List.mem_cons.mpr h)
    rw [List.cons_append, linesFrom, List.countP_cons]
    · split
      · rw [List.length_cons, ih hs]
        omega
      · rw [ih hs]
    · rintro cs rfl
      exact absurd rfl hc

def joinLines (ts : List (List Char)) : List Char := ts.flatMap (· ++ ['\r', '\n'])

theorem joinLines_cons (t : List Char) (ts : List (List Char)) :
    joinLines (t :: ts) = t ++ '\r' :: '\n' :: joinLines ts := by
  simp [joinLines]

theorem splitlines_joinLines {ts : List (List Char)} (h : ∀ t ∈ ts, ∀ c ∈ t, isLineBreak c = false) :
    splitlines (joinLines ts) = ts := by
  induction ts with
  | nil => rfl
  | cons t ts ih =>
    obtain ⟨ht, hts⟩ := List.forall_mem_cons.mp h
    rw [splitlines, joinLines_cons, linesFrom_plain ht, List.nil_append]
    exact congrArg (t :: ·) (ih hts)

theorem length_splitlines_joinLines {ts : List (List Char)} (h : ∀ t ∈ ts, '\r' ∉ t) :
    (splitlines (joinLines ts)).length = (ts.map (List.countP isLineBreak)).sum + ts.length := by
  induction ts with
  | nil => rfl
  | cons t ts ih =>
    obtain ⟨ht, hts⟩ := List.forall_mem_cons.mp h
    have hrest := ih hts
    rw [splitlines] at hrest
    rw [splitlines, joinLines_cons, length_linesFrom ht, hrest, List.map_cons, List.sum_cons,
      List.length_cons]
    omega

theorem not_mem_of_linesFrom {line s l : List Char} (hline : '\n' ∉ line) (hl : l ∈ linesFrom line s) :
    '\n' ∉ l := by
  fun_induction linesFrom line s with
  | case1 => cases hl
  | case2 => rwa [List.mem_singleton.mp hl]
  | case3 line cs ih =>
    rcases List.mem_cons.mp hl with rfl | hl
    · exact hline
    · exact ih List.not_mem_nil hl
  | case4 line c cs hcr hbreak ih =>
    rcases List.mem_cons.mp hl with rfl | hl
    · exact hline
    · exact ih List.not_mem_nil hl
  | case5 line c cs hcr hbreak ih =>
    refine ih (fun hmem => ?_) hl
    rcases List.mem_append.mp hmem with hmem | hmem
    · exact hline hmem
    · obtain rfl := List.mem_singleton.mp hmem
      exact hbreak rfl

end PyText

namespace PyBytes

/-- A literal `b"..."`. -/
def ofAscii (s : String) : Bytes := s.toList.map fun c => UInt8.ofNat c.toNat

def lower (bs : Bytes) : Bytes := bs.map fun b => if 65 ≤ b ∧ b ≤ 90 then b + 32 else b

def upper (bs : Bytes) : Bytes := bs.map fun b => if 97 ≤ b ∧ b ≤ 122 then b - 32 else b

def split (bs : Bytes) : List Bytes :=
  PyText.words (fun b => b = 32 || (9 ≤ b && b ≤ 13)) [] bs

def latin1 (bs : Bytes) : List Char := bs.map fun b => Char.ofNat b.toNat

/-- `str.encode("latin-1")`.  `none` is `UnicodeEncodeError`. -/
def encodeLatin1 (s : List Char) : Option Bytes :=
  s.mapM fun c => if c.toNat < 256 then some (UInt8.ofNat c.toNat) else none

def encode (s : List Char) : Bytes := s.flatMap String.utf8EncodeChar

structure Sequence where
  missing : Nat
  bits : Nat
  low : UInt8
  high : UInt8

def begin (bad : List Char) (b : UInt8) : List Char × Option Sequence :=
  if b < 0x80 then ([Char.ofNat b.toNat], none)
  else if 0xc2 ≤ b ∧ b < 0xe0 then ([], some ⟨1, b.toNat - 0xc0, 0x80, 0xbf⟩)
  else if b = 0xe0 then ([], some ⟨2, 0, 0xa0, 0xbf⟩)
  else if b = 0xed then ([], some ⟨2, 0xd, 0x80, 0x9f⟩)
  else if 0xe1 ≤ b ∧ b < 0xf0 then ([], some ⟨2, b.toNat - 0xe0, 0x80, 0xbf⟩)
  else if b = 0xf0 then ([], some ⟨3, 0, 0x90, 0xbf⟩)
  else if b = 0xf4 then ([], some ⟨3, 4, 0x80, 0x8f⟩)
  else if 0xf1 ≤ b ∧ b < 0xf4 then ([], some ⟨3, b.toNat - 0xf0, 0x80, 0xbf⟩)
  else (bad, none)

/-- `bytes.decode`, where `bad` is written for what is not UTF-8. -/
def utf8 (bad : List Char) : Option Sequence → Bytes → List Char
  | none, [] => []
  | some _, [] => bad
  | none, b :: bs =>
    let (cs, next) := begin bad b
    cs ++ utf8 bad next bs
  | some seq, b :: bs =>
    if seq.low ≤ b ∧ b ≤ seq.high then
      let bits := seq.bits * 64 + (b.toNat - 0x80)
      if seq.missing = 1 then Char.ofNat bits :: utf8 bad none bs
      else utf8 bad (some ⟨seq.missing - 1, bits, 0x80, 0xbf⟩) bs
    else
      let (cs, next) := begin bad b
      bad ++ cs ++ utf8 bad next bs

def decodeIgnore (bs : Bytes) : List Char := utf8 [] none bs

def decodeReplace (bs : Bytes) : List Char := utf8 [Char.ofNat 0xfffd] none bs

theorem length_encodeLatin1 {s : List Char} {bs : Bytes} (h : encodeLatin1 s = some bs) :
    bs.length = s.length := by
  induction s generalizing bs with
  | nil => cases h; rfl
  | cons c s ih =>
    rw [encodeLatin1, List.mapM_cons] at h
    obtain ⟨b, -, hrest⟩ := Option.bind_eq_some_iff.mp h
    obtain ⟨rest, htail, hout⟩ := Option.bind_eq_some_iff.mp hrest
    cases hout
    rw [List.length_cons, List.length_cons, ih htail]

theorem toNat_ofNat_byte (b : UInt8) : (Char.ofNat b.toNat).toNat = b.toNat := by
  have hlt := b.toNat_lt
  have hvalid : b.toNat.isValidChar := .inl (by omega)
  rw [Char.ofNat, dif_pos hvalid]
  rfl

theorem latin1_append (bs cs : Bytes) : latin1 (bs ++ cs) = latin1 bs ++ latin1 cs := List.map_append

theorem encodeLatin1_latin1 (bs : Bytes) : encodeLatin1 (latin1 bs) = some bs := by
  induction bs with
  | nil => rfl
  | cons b bs ih =>
    have hlt := b.toNat_lt
    rw [encodeLatin1] at ih
    rw [latin1, encodeLatin1, List.map_cons, List.mapM_cons, toNat_ofNat_byte, if_pos (by omega)]
    rw [latin1] at ih
    simp [ih]

theorem latin1_of_encodeLatin1 {s : List Char} {bs : Bytes} (h : encodeLatin1 s = some bs) :
    latin1 bs = s := by
  induction s generalizing bs with
  | nil => cases h; rfl
  | cons c s ih =>
    rw [encodeLatin1, List.mapM_cons] at h
    obtain ⟨b, hb, hrest⟩ := Option.bind_eq_some_iff.mp h
    obtain ⟨rest, htail, hout⟩ := Option.bind_eq_some_iff.mp hrest
    cases hout
    split at hb
    · next hlt =>
      cases hb
      rw [latin1, List.map_cons, UInt8.toNat_ofNat', Nat.mod_eq_of_lt hlt, Char.ofNat_toNat]
      exact congrArg _ (ih htail)
    · cases hb

theorem isSome_encodeLatin1 {s : List Char} : (encodeLatin1 s).isSome ↔ ∀ c ∈ s, c.toNat < 256 := by
  induction s with
  | nil => simp [encodeLatin1]
  | cons c s ih =>
    rw [List.forall_mem_cons, ← ih]
    by_cases hc : c.toNat < 256
    · cases hs : encodeLatin1 s with
      | none =>
        rw [encodeLatin1] at hs
        simp [encodeLatin1, List.mapM_cons, hs]
      | some bs =>
        rw [encodeLatin1] at hs
        simp [encodeLatin1, List.mapM_cons, hs, hc]
    · simp [encodeLatin1, List.mapM_cons, hc]

theorem utf8EncodeChar_of_lt {c : Char} (h : c.toNat < 128) :
    String.utf8EncodeChar c = [UInt8.ofNat c.toNat] := by
  unfold String.utf8EncodeChar
  dsimp only
  rw [if_pos (by change c.toNat ≤ 127; omega)]
  rfl

theorem le_of_mem_utf8EncodeChar {c : Char} (h : 128 ≤ c.toNat) {b : UInt8}
    (hb : b ∈ String.utf8EncodeChar c) : 128 ≤ b.toNat := by
  have hhigh : ∀ n m base : Nat, 0 < m → 128 ≤ base → base + m ≤ 256 →
      128 ≤ (UInt8.ofNat (n % m + base)).toNat := by
    intro n m base hm hbase hsum
    have hlt := Nat.mod_lt n hm
    rw [UInt8.toNat_ofNat']
    omega
  have hlow : ¬ c.val.toNat ≤ 127 := by
    change ¬ c.toNat ≤ 127
    omega
  unfold String.utf8EncodeChar at hb
  dsimp only at hb
  rw [if_neg hlow] at hb
  split at hb
  · simp only [List.mem_cons, List.not_mem_nil, or_false] at hb
    rcases hb with rfl | rfl <;> exact hhigh _ _ _ (by decide) (by decide) (by decide)
  · split at hb
    · simp only [List.mem_cons, List.not_mem_nil, or_false] at hb
      rcases hb with rfl | rfl | rfl <;> exact hhigh _ _ _ (by decide) (by decide) (by decide)
    · simp only [List.mem_cons, List.not_mem_nil, or_false] at hb
      rcases hb with rfl | rfl | rfl | rfl <;> exact hhigh _ _ _ (by decide) (by decide) (by decide)
theorem encode_cons (c : Char) (s : List Char) : encode (c :: s) = String.utf8EncodeChar c ++ encode s := rfl

theorem latin1_encode {s : List Char} (h : ∀ c ∈ s, c.toNat < 128) : latin1 (encode s) = s := by
  induction s with
  | nil => rfl
  | cons c s ih =>
    obtain ⟨hc, hs⟩ := List.forall_mem_cons.mp h
    have hmod : c.toNat % 2 ^ 8 = c.toNat := Nat.mod_eq_of_lt (by omega)
    rw [encode_cons, latin1_append, ih hs, utf8EncodeChar_of_lt hc]
    simp only [latin1, List.map_cons, List.map_nil, UInt8.toNat_ofNat', hmod, Char.ofNat_toNat,
      List.singleton_append]

theorem ascii_of_latin1_encode {s : List Char} (h : (latin1 (encode s)).length ≤ s.length) :
    ∀ c ∈ s, c.toNat < 128 := by
  have hle : ∀ s : List Char, s.length ≤ (encode s).length := by
    intro s
    induction s with
    | nil => rfl
    | cons c s ih =>
      have hpos := c.utf8Size_pos
      rw [encode_cons, List.length_append, String.length_utf8EncodeChar, List.length_cons]
      omega
  induction s with
  | nil => simp
  | cons c s ih =>
    have hpos := c.utf8Size_pos
    have hrest := hle s
    rw [latin1, List.length_map] at h ih
    rw [encode_cons, List.length_append, String.length_utf8EncodeChar, List.length_cons] at h
    refine List.forall_mem_cons.mpr ⟨?_, ih (by omega)⟩
    have hone : c.utf8Size = 1 := by omega
    have hval := UInt32.le_iff_toNat_le.mp (Char.utf8Size_eq_one_iff.mp hone)
    exact Nat.lt_succ_of_le hval

theorem count_latin1_encode (s : List Char) : (latin1 (encode s)).count '\n' = s.count '\n' := by
  induction s with
  | nil => rfl
  | cons c s ih =>
    rw [encode_cons, latin1_append, List.count_append, ih, List.count_cons]
    by_cases hc : c.toNat < 128
    · have hsingle := latin1_encode (s := [c]) (by simpa using hc)
      rw [encode_cons, encode, List.flatMap_nil, List.append_nil] at hsingle
      rw [hsingle, List.count_singleton, Nat.add_comm]
    · have hne : c ≠ '\n' := by
        rintro rfl
        exact hc (by decide)
      have hnone : '\n' ∉ latin1 (String.utf8EncodeChar c) := by
        intro hmem
        obtain ⟨b, hb, heq⟩ := List.mem_map.mp hmem
        have hhigh := le_of_mem_utf8EncodeChar (not_lt.mp hc) hb
        have hnat := congrArg Char.toNat heq
        rw [toNat_ofNat_byte] at hnat
        have hten : Char.toNat '\n' = 10 := rfl
        omega
      rw [List.count_eq_zero.mpr hnone, if_neg (by simpa using hne)]
      omega

end PyBytes

end ProxySplit
