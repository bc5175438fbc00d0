import ProxySplit.Streaming.Upgrade

namespace ProxySplit

open Lib

namespace PyText

theorem rpartition_append {p : List Char} (hp : ':' ∉ p) (host : List Char) :
    rpartition (host ++ ':' :: p) = (host, p) := by
  have hne : ∀ c ∈ p.reverse, decide (c ≠ ':') = true := by
    intro c hc
    exact decide_eq_true fun heq => hp (heq ▸ List.mem_reverse.mp hc)
  have hrev : (host ++ ':' :: p).reverse = p.reverse ++ ':' :: host.reverse := by simp
  rw [rpartition, if_pos (by simp), hrev, List.dropWhile_append_of_pos hne,
    List.takeWhile_append_of_pos hne]
  simp

theorem rpartition_of_notMem {s : List Char} (h : ':' ∉ s) : rpartition s = ([], s) := by
  rw [rpartition, if_neg h]

theorem isDigit_of_digitsOf {s ds : List Char} (h : digitsOf s = some ds) :
    ∃ l c, s = l ++ [c] ∧ isDigit c = true := by
  fun_induction digitsOf s generalizing ds with
  | case1 => cases h
  | case2 c hc => exact ⟨[], c, rfl, hc⟩
  | case3 c hc rest ih =>
    obtain ⟨ds', hds, -⟩ := Option.map_eq_some_iff.mp h
    obtain ⟨l, d, rfl, hd⟩ := ih hds
    exact ⟨c :: '_' :: l, d, rfl, hd⟩
  | case4 c hc d rest hne ih =>
    obtain ⟨ds', hds, -⟩ := Option.map_eq_some_iff.mp h
    obtain ⟨l, e, heq, he⟩ := ih hds
    exact ⟨c :: l, e, by rw [heq]; rfl, he⟩
  | case5 => cases h

theorem all_isDigit_of_digitsOf {s ds : List Char} (hs : '_' ∉ s) (h : digitsOf s = some ds) :
    ds = s ∧ ∀ c ∈ s, isDigit c = true := by
  fun_induction digitsOf s generalizing ds with
  | case1 => cases h
  | case2 c hc =>
    cases h
    exact ⟨rfl, by simpa using hc⟩
  | case3 c hc rest ih => exact absurd (.tail _ (.head _)) hs
  | case4 c hc d rest hne ih =>
    obtain ⟨ds', hds, rfl⟩ := Option.map_eq_some_iff.mp h
    obtain ⟨rfl, hall⟩ := ih (fun hmem => hs (.tail _ hmem)) hds
    exact ⟨rfl, List.forall_mem_cons.mpr ⟨hc, hall⟩⟩
  | case5 => cases h

theorem stripOf_append {space : Char → Bool} {c : Char} (hc : space c = false) (l : List Char) :
    ∃ l', stripOf space (l ++ [c]) = l' ++ [c] := by
  have hdrop : ∃ l', (l ++ [c]).dropWhile space = l' ++ [c] := by
    induction l with
    | nil => exact ⟨[], by simp [hc]⟩
    | cons d l ih =>
      by_cases hd : space d = true
      · rw [List.cons_append, List.dropWhile_cons_of_pos hd]
        exact ih
      · rw [List.cons_append, List.dropWhile_cons_of_neg hd]
        exact ⟨d :: l, rfl⟩
  obtain ⟨l', hl'⟩ := hdrop
  refine ⟨l', ?_⟩
  rw [stripOf, hl', List.reverse_append, List.reverse_singleton, List.singleton_append,
    List.dropWhile_cons_of_neg (by simp [hc]), List.reverse_cons, List.reverse_reverse]

theorem int_eq_none {c : Char} (hspace : isSpace c = false) (hdigit : isDigit c = false)
    (l : List Char) : int (l ++ [c]) = none := by
  obtain ⟨l', hl'⟩ := stripOf_append (not_isNumberSpace_of_isSpace hspace) l
  have hnone : ∀ s : List Char, natLiteral (s ++ [c]) = none := by
    intro s
    unfold natLiteral
    cases hds : digitsOf (s ++ [c]) with
    | none => rfl
    | some ds =>
      obtain ⟨s', d, heq, hd⟩ := isDigit_of_digitsOf hds
      cases (List.append_inj' heq rfl).2
      rw [hd] at hdigit
      cases hdigit
  have hsigned : ∀ (sign : Char) (rest : List Char), l' ++ [c] = sign :: rest →
      natLiteral rest = none := by
    intro sign rest heq
    cases l' with
    | nil =>
      cases heq
      rfl
    | cons d l' =>
      obtain ⟨-, rfl⟩ := List.cons.inj heq
      exact hnone l'
  unfold int
  rw [hl']
  split
  · next heq => rw [hsigned _ _ heq, Option.map_none]
  · next heq => rw [hsigned _ _ heq, Option.map_none]
  · rw [hnone, Option.map_none]

theorem otherDigits_disjoint : ∀ n ∈ 43 :: 45 :: 95 :: spaces,
    otherDigits.any (fun r => r.1 ≤ n && n ≤ r.2) = false := by decide +kernel

theorem toNat_notMem_of_allDigits {s : List Char} (h : allDigits s = true) {c : Char} (hc : c ∈ s) :
    c.toNat ∉ 43 :: 45 :: 95 :: spaces := by
  intro hmem
  simp only [allDigits, Bool.and_eq_true, List.all_eq_true, Bool.or_eq_true] at h
  rcases h.2 c hc with hdigit | hother
  · have hspace := not_isSpace_of_isDigit hdigit
    simp only [List.mem_cons] at hmem
    rcases hmem with hn | hn | hn | hn
    · rw [show c = '+' from Char.toNat_inj.mp hn, isDigit_plus] at hdigit
      cases hdigit
    · rw [show c = '-' from Char.toNat_inj.mp hn, isDigit_dash] at hdigit
      cases hdigit
    · rw [show c = '_' from Char.toNat_inj.mp hn, isDigit_underscore] at hdigit
      cases hdigit
    · exact absurd hn (of_decide_eq_false hspace)
  · rw [otherDigits_disjoint _ hmem] at hother
    cases hother

theorem isSome_int_of_allDigits {s : List Char} (h : allDigits s = true) :
    (int s).isSome ↔ (∀ c ∈ s, isDigit c = true) ∧ s.length ≤ maxStrDigits := by
  have hne : s ≠ [] := by
    rintro rfl
    cases h
  constructor
  · intro hsome
    have hout : ∀ c ∈ s, c.toNat ∉ 43 :: 45 :: 95 :: spaces :=
      fun c hc => toNat_notMem_of_allDigits h hc
    have hspace : ∀ c ∈ s, isSpace c = false := by
      intro c hc
      refine decide_eq_false fun hmem => hout c hc ?_
      exact List.mem_cons_of_mem _ (List.mem_cons_of_mem _ (List.mem_cons_of_mem _ hmem))
    have hunderscore : '_' ∉ s := fun hmem => hout '_' hmem (by decide)
    unfold int at hsome
    rw [stripOf_eq_self fun c hc => not_isNumberSpace_of_isSpace (hspace c hc)] at hsome
    split at hsome
    · exact absurd (by decide) (hout '+' (.head _))
    · exact absurd (by decide) (hout '-' (.head _))
    · rw [Option.isSome_map, natLiteral] at hsome
      cases hds : digitsOf s with
      | none =>
        rw [hds] at hsome
        cases hsome
      | some ds =>
        obtain ⟨rfl, hall⟩ := all_isDigit_of_digitsOf hunderscore hds
        rw [hds, Option.bind_some] at hsome
        split at hsome
        · next hlen => exact ⟨hall, hlen⟩
        · cases hsome
  · rintro ⟨hdigits, hlen⟩
    rw [int_of_isDigit hne hdigits, if_pos hlen]
    rfl

end PyText

theorem PyBytes.utf8_ascii (bad : List Char) {bs : Bytes} (h : ∀ b ∈ bs, b < 0x80) :
    PyBytes.utf8 bad none bs = PyBytes.latin1 bs := by
  induction bs with
  | nil => rfl
  | cons b bs ih =>
    obtain ⟨hb, hbs⟩ := List.forall_mem_cons.mp h
    rw [PyBytes.utf8, PyBytes.begin, if_pos hb]
    exact congrArg _ (ih hbs)

/-- Host and port of the second word of a `CONNECT`.  `none` is `ValueError`. -/
def connectAuthority (hp : Bytes) : Option (List Char × Int) :=
  let (host, ps) := PyText.rpartition (PyBytes.decodeIgnore hp)
  if PyText.allDigits ps then (PyText.int ps).map fun port => (host, port) else some (host, 443)

theorem PyText.words_append {α : Type} {space : α → Bool} {w : List α} (h : ∀ c ∈ w, space c = false)
    (word rest : List α) : PyText.words space word (w ++ rest) = PyText.words space (word ++ w) rest := by
  induction w generalizing word with
  | nil => rw [List.nil_append, List.append_nil]
  | cons c w ih =>
    obtain ⟨hc, hw⟩ := List.forall_mem_cons.mp h
    rw [List.cons_append, PyText.words, hc, if_neg (by decide), ih hw, List.append_assoc,
      List.singleton_append]

theorem PyText.words_cons {α : Type} {space : α → Bool} {w : List α} (hne : w ≠ [])
    (h : ∀ c ∈ w, space c = false) {c : α} (hc : space c = true) (rest : List α) :
    PyText.words space [] (w ++ c :: rest) = w :: PyText.words space [] rest := by
  have hempty : ¬ w.isEmpty = true := fun heq => hne (List.isEmpty_iff.mp heq)
  rw [PyText.words_append h, List.nil_append, PyText.words, if_pos hc, if_neg hempty]

theorem connectTarget_of_split {firstLine word hp : Bytes} {more : List Bytes}
    (h : PyBytes.split firstLine = word :: hp :: more) :
    connectTarget firstLine = connectAuthority hp := by
  rw [connectTarget, h]
  rfl

theorem connectTarget_line {hp : Bytes} (hne : hp ≠ [])
    (h : ∀ b ∈ hp, (b = 32 || (9 ≤ b && b ≤ 13)) = false) :
    connectTarget (PyBytes.ofAscii "CONNECT" ++ 32 :: (hp ++ 32 :: PyBytes.ofAscii "HTTP/1.1\r\n")) =
      connectAuthority hp := by
  have hsplit : PyBytes.split (PyBytes.ofAscii "CONNECT" ++ 32 :: (hp ++ 32 ::
      PyBytes.ofAscii "HTTP/1.1\r\n")) = PyBytes.ofAscii "CONNECT" :: hp ::
        PyBytes.split (PyBytes.ofAscii "HTTP/1.1\r\n") := by
    have hconnect : ∀ b ∈ PyBytes.ofAscii "CONNECT", (b = 32 || (9 ≤ b && b ≤ 13)) = false := by
      have hall : (PyBytes.ofAscii "CONNECT").all (fun b => !(b = 32 || (9 ≤ b && b ≤ 13))) = true := by
        decide
      exact fun b hb => (Bool.not_eq_true' _).mp (List.all_eq_true.mp hall b hb)
    rw [PyBytes.split, PyText.words_cons (by decide) hconnect (by decide),
      PyText.words_cons hne h (by decide), PyBytes.split]
  exact connectTarget_of_split hsplit

namespace Websocket

/-- Host and port of what follows `Host:`.  `none` is `ValueError`. -/
def hostAuthority (value : Bytes) : Option (List Char × Int) :=
  hostPort (PyText.strip (PyBytes.latin1 value))

theorem hostValue_rawHeaders {r : UpgradeRequest} {again : Bool} {value : Bytes}
    (hunbroken : ∀ h ∈ r.line :: r.block again, Unbroken h)
    (hfind : (r.line :: r.block again).find? (fun h => isHostLine (PyBytes.latin1 h)) =
      some (PyBytes.ofAscii "Host:" ++ value)) :
    hostValue (PyBytes.latin1 (r.rawHeaders again)) = some (PyText.strip (PyBytes.latin1 value)) := by
  have hlines : ∀ t ∈ (r.line :: r.block again ++ [[]]).map PyBytes.latin1,
      ∀ c ∈ t, PyText.isLineBreak c = false := by
    intro t ht
    obtain ⟨bs, hbs, rfl⟩ := List.mem_map.mp ht
    rcases List.mem_append.mp hbs with hbs | hbs
    · exact hunbroken bs hbs
    · rw [List.mem_singleton.mp hbs]
      intro c hc
      cases hc
  have hfirst : ((r.line :: r.block again ++ [[]]).map PyBytes.latin1).find? isHostLine =
      some (PyBytes.latin1 (PyBytes.ofAscii "Host:" ++ value)) := by
    rw [List.find?_map, List.find?_append, Function.comp_def, hfind]
    rfl
  have htext : PyBytes.latin1 (PyBytes.ofAscii "Host:" ++ value) =
      "Host".toList ++ ':' :: PyBytes.latin1 value := by
    rw [PyBytes.latin1_append]
    rfl
  rw [hostValue, latin1_rawHeaders, PyText.splitlines_joinLines hlines, hfirst, htext]
  rfl

theorem upgradeTarget_of_hostValue {urlparse : List Char → Option ParsedUrl} {firstLine value : Bytes}
    {header word path : List Char} {more : List (List Char)} {parsed : ParsedUrl}
    (hline : PyText.split (PyBytes.decodeReplace firstLine) = word :: path :: more)
    (hparsed : urlparse path = some parsed)
    (hscheme : ¬ (parsed.scheme = "ws".toList ∨ parsed.scheme = "wss".toList))
    (hvalue : hostValue header = some (PyText.strip (PyBytes.latin1 value))) :
    upgradeTarget urlparse firstLine header = match hostAuthority value with
      | none => .raises
      | some (host, port) => if host = [] then .badRequest else .target ⟨host, port, path⟩ := by
  rw [upgradeTarget, hline]
  dsimp only
  rw [hparsed]
  dsimp only
  rw [if_neg hscheme, hvalue]
  rfl

end Websocket

def hostByte (b : UInt8) : Bool :=
  (48 ≤ b && b ≤ 57) || (65 ≤ b && b ≤ 90) || (97 ≤ b && b ≤ 122) ||
    b ∈ PyBytes.ofAscii "-._~%!$&'()*+,;="

def HostName (host : Bytes) : Prop := host ≠ [] ∧ ∀ b ∈ host, hostByte b = true

def Ipv6 (v6 : Bytes) : Prop := 58 ∈ v6 ∧ ∀ b ∈ v6, hostByte b = true ∨ b = 58

/-- `host`, `host:port`, `[ipv6]` or `[ipv6]:port`. -/
structure Authority where
  host : Bytes
  port : Option Bytes
  host_ok : HostName host ∨ ∃ v6, host = 91 :: v6 ++ [93] ∧ Ipv6 v6
  port_ok : ∀ p ∈ port, p ≠ [] ∧ ∀ b ∈ p, 48 ≤ b ∧ b ≤ 57

namespace Authority

def render (a : Authority) : Bytes :=
  a.host ++ match a.port with
    | none => []
    | some p => 58 :: p

def Names (a : Authority) (host : List Char) : Prop :=
  host = PyBytes.latin1 a.host ∨ ∃ v6, a.host = 91 :: v6 ++ [93] ∧ host = PyBytes.latin1 v6

def portOr (a : Authority) (default : Int) : Int :=
  match a.port with
  | none => default
  | some p => PyText.digitsValue (PyBytes.latin1 p)

end Authority

/-- What `parse` returns for an authority is its host and its port, and it raises for nothing else. -/
def Reads (parse : Bytes → Option (List Char × Int)) (default : Int) (bs : Bytes) : Prop :=
  (∀ a : Authority, a.render = bs → ∃ host, parse bs = some (host, a.portOr default) ∧ a.Names host) ∧
  ((∀ a : Authority, a.render ≠ bs) → (parse bs).isSome)

/-- An authority has a port, of no more digits than `int` takes; and what follows the last colon of anything
else are decimal digits, no more than that either, if they are digits at all. -/
def ConnectFits (bs : Bytes) : Prop :=
  (∀ a : Authority, a.render = bs → ∃ p ∈ a.port, p.length ≤ PyText.maxStrDigits) ∧
  ((∀ a : Authority, a.render ≠ bs) →
    let ps := (PyText.rpartition (PyBytes.decodeIgnore bs)).2
    PyText.allDigits ps = true →
      (∀ c ∈ ps, PyText.isDigit c = true) ∧ ps.length ≤ PyText.maxStrDigits)

/-- An authority is a name without a port, or has one of no more digits than `int` takes; and what follows the
last colon of anything else, if there is a colon, is an integer for `int`. -/
def HostFits (bs : Bytes) : Prop :=
  (∀ a : Authority, a.render = bs → (a.port = none ∧ HostName a.host) ∨
    ∃ p ∈ a.port, p.length ≤ PyText.maxStrDigits) ∧
  ((∀ a : Authority, a.render ≠ bs) →
    let value := PyText.strip (PyBytes.latin1 bs)
    ':' ∈ value → (PyText.int (PyText.rpartition value).2).isSome)

theorem hostByte_plain : ∀ n < 256, hostByte (UInt8.ofNat n) = true →
    n < 128 ∧ n ∉ PyText.spaces ∧ n ≠ 58 ∧ n ≠ 91 ∧ n ≠ 93 := by decide +kernel

theorem plain_of_hostByte {b : UInt8} (h : hostByte b = true) :
    b.toNat < 128 ∧ b.toNat ∉ PyText.spaces ∧ b.toNat ≠ 58 ∧ b.toNat ≠ 91 ∧ b.toNat ≠ 93 :=
  hostByte_plain b.toNat b.toNat_lt (by rwa [UInt8.ofNat_toNat])

theorem mem_latin1 {bs : Bytes} {b : UInt8} : Char.ofNat b.toNat ∈ PyBytes.latin1 bs ↔ b ∈ bs := by
  constructor
  · intro h
    by_contra hnot
    exact Websocket.notMem_latin1 hnot h
  · exact List.mem_map_of_mem

theorem isDigit_of_digit {b : UInt8} (h : 48 ≤ b ∧ b ≤ 57) :
    PyText.isDigit (Char.ofNat b.toNat) = true := by
  refine PyText.isDigit_of_ascii ?_
  have hlo : 48 ≤ b.toNat := UInt8.le_iff_toNat_le.mp h.1
  have hhi : b.toNat ≤ 57 := UInt8.le_iff_toNat_le.mp h.2
  simp only [Char.isDigit, Bool.and_eq_true, decide_eq_true_eq]
  have hnat := PyBytes.toNat_ofNat_byte b
  constructor
  · exact UInt32.le_iff_toNat_le.mpr (by change 48 ≤ (Char.ofNat b.toNat).toNat; omega)
  · exact UInt32.le_iff_toNat_le.mpr (by change (Char.ofNat b.toNat).toNat ≤ 57; omega)

theorem exists_last {α : Type} {a : α} {l : List α} (h : a ∈ l) : ∃ s t, l = s ++ a :: t ∧ a ∉ t := by
  obtain ⟨s, t, heq, hs⟩ := List.eq_append_cons_of_mem (List.mem_reverse.mpr h)
  refine ⟨t.reverse, s.reverse, ?_, fun hmem => hs (List.mem_reverse.mp hmem)⟩
  have hrev := congrArg List.reverse heq
  simpa using hrev

namespace Authority

variable {a : Authority} {p : Bytes}

theorem plain_host (a : Authority) : ∀ b ∈ a.host, b.toNat < 128 ∧ b.toNat ∉ PyText.spaces := by
  rcases a.host_ok with ⟨-, hall⟩ | ⟨v6, heq, -, hall⟩
  · intro b hb
    obtain ⟨hlt, hspace, -⟩ := plain_of_hostByte (hall b hb)
    exact ⟨hlt, hspace⟩
  · rw [heq]
    intro b hb
    rcases List.mem_append.mp hb with hb | hb
    · rcases List.mem_cons.mp hb with rfl | hb
      · decide
      · rcases hall b hb with hb | rfl
        · obtain ⟨hlt, hspace, -⟩ := plain_of_hostByte hb
          exact ⟨hlt, hspace⟩
        · decide
    · obtain rfl := List.mem_singleton.mp hb
      decide

theorem plain_render (a : Authority) : ∀ b ∈ a.render, b.toNat < 128 ∧ b.toNat ∉ PyText.spaces := by
  intro b hb
  rcases List.mem_append.mp hb with hb | hb
  · exact a.plain_host b hb
  · split at hb
    · cases hb
    · next p hp =>
      rcases List.mem_cons.mp hb with rfl | hb
      · decide
      · have hdigit := isDigit_of_digit ((a.port_ok p hp).2 b hb)
        have hspace := of_decide_eq_false (PyText.not_isSpace_of_isDigit hdigit)
        have hhi : b.toNat ≤ 57 := UInt8.le_iff_toNat_le.mp ((a.port_ok p hp).2 b hb).2
        rw [PyBytes.toNat_ofNat_byte] at hspace
        exact ⟨by omega, hspace⟩

theorem decodeIgnore_render (a : Authority) : PyBytes.decodeIgnore a.render = PyBytes.latin1 a.render :=
  PyBytes.utf8_ascii [] fun b hb => UInt8.lt_iff_toNat_lt.mpr (a.plain_render b hb).1

theorem strip_render (a : Authority) : PyText.strip (PyBytes.latin1 a.render) = PyBytes.latin1 a.render := by
  refine PyText.strip_eq_self fun c hc => ?_
  obtain ⟨b, hb, rfl⟩ := List.mem_map.mp hc
  refine decide_eq_false ?_
  rw [PyBytes.toNat_ofNat_byte]
  exact (a.plain_render b hb).2

theorem rpartition_render (h : a.port = some p) :
    PyText.rpartition (PyBytes.latin1 a.render) = (PyBytes.latin1 a.host, PyBytes.latin1 p) := by
  have hcolon : ':' ∉ PyBytes.latin1 p := by
    refine Websocket.notMem_latin1 (b := 58) fun hmem => ?_
    have hhi := UInt8.le_iff_toNat_le.mp ((a.port_ok p h).2 58 hmem).2
    exact absurd hhi (by decide)
  have hrender : PyBytes.latin1 a.render = PyBytes.latin1 a.host ++ ':' :: PyBytes.latin1 p := by
    rw [render, h, PyBytes.latin1_append]
    rfl
  rw [hrender, PyText.rpartition_append hcolon]

theorem isDigit_port (h : a.port = some p) : ∀ c ∈ PyBytes.latin1 p, PyText.isDigit c = true := by
  intro c hc
  obtain ⟨b, hb, rfl⟩ := List.mem_map.mp hc
  exact isDigit_of_digit ((a.port_ok p h).2 b hb)

theorem int_port (h : a.port = some p) : PyText.int (PyBytes.latin1 p) =
    if p.length ≤ PyText.maxStrDigits then some (PyText.digitsValue (PyBytes.latin1 p) : Int)
    else none := by
  have hne : PyBytes.latin1 p ≠ [] := fun heq => (a.port_ok p h).1 (List.map_eq_nil_iff.mp heq)
  rw [PyText.int_of_isDigit hne (isDigit_port h), PyBytes.latin1, List.length_map]

theorem connectAuthority_port (h : a.port = some p) : connectAuthority a.render =
    if p.length ≤ PyText.maxStrDigits then
      some (PyBytes.latin1 a.host, (PyText.digitsValue (PyBytes.latin1 p) : Int))
    else none := by
  have hne : PyBytes.latin1 p ≠ [] := fun heq => (a.port_ok p h).1 (List.map_eq_nil_iff.mp heq)
  have hall : PyText.allDigits (PyBytes.latin1 p) = true := by
    simp only [PyText.allDigits, Bool.and_eq_true, decide_eq_true_eq, List.all_eq_true, Bool.or_eq_true]
    exact ⟨hne, fun c hc => .inl (isDigit_port h c hc)⟩
  rw [connectAuthority, decodeIgnore_render, rpartition_render h]
  dsimp only
  rw [if_pos hall, int_port h]
  split <;> rfl

theorem hostAuthority_port (h : a.port = some p) : Websocket.hostAuthority a.render =
    if p.length ≤ PyText.maxStrDigits then
      some (PyBytes.latin1 a.host, (PyText.digitsValue (PyBytes.latin1 p) : Int))
    else none := by
  have hcolon : ':' ∈ PyBytes.latin1 a.render := by
    refine mem_latin1 (b := 58).mpr ?_
    rw [render, h]
    simp
  rw [Websocket.hostAuthority, strip_render, Websocket.hostPort, if_pos hcolon, rpartition_render h]
  dsimp only
  rw [int_port h]
  split <;> rfl

theorem notMem_of_hostByte {bs : Bytes} (h : ∀ b ∈ bs, hostByte b = true ∨ b = 58) : 91 ∉ bs := by
  intro hmem
  rcases h 91 hmem with hbyte | heq
  · exact absurd hbyte (by decide)
  · exact absurd heq (by decide)

theorem colon_notMem_host (h : HostName a.host) : ':' ∉ PyBytes.latin1 a.host :=
  Websocket.notMem_latin1 (b := 58) fun hmem => absurd (h.2 58 hmem) (by decide)

theorem rpartition_literal {v6 : Bytes} (hv6 : Ipv6 v6) : ∃ u w : Bytes, v6 = u ++ 58 :: w ∧
    PyText.rpartition (PyBytes.latin1 (91 :: v6 ++ [93])) =
      ('[' :: PyBytes.latin1 u, PyBytes.latin1 w ++ [']']) := by
  obtain ⟨u, w, rfl, hw⟩ := exists_last hv6.1
  refine ⟨u, w, rfl, ?_⟩
  have hcolon : ':' ∉ PyBytes.latin1 (w ++ [93]) := by
    refine Websocket.notMem_latin1 (b := 58) fun hmem => ?_
    rcases List.mem_append.mp hmem with hmem | hmem
    · exact hw hmem
    · exact absurd (List.mem_singleton.mp hmem) (by decide)
  have htext : PyBytes.latin1 (91 :: (u ++ 58 :: w) ++ [93]) =
      '[' :: PyBytes.latin1 u ++ ':' :: PyBytes.latin1 (w ++ [93]) := by
    simp [PyBytes.latin1]
  rw [htext, PyText.rpartition_append hcolon, PyBytes.latin1_append]
  rfl

theorem not_names_rpartition (a : Authority) :
    ¬ a.Names (PyText.rpartition (PyBytes.latin1 a.host)).1 := by
  rcases a.host_ok with hname | ⟨v6, heq, hv6⟩
  · rw [PyText.rpartition_of_notMem (colon_notMem_host hname)]
    rintro (hnil | ⟨v6, heq, -⟩)
    · exact hname.1 (List.map_eq_nil_iff.mp hnil.symm)
    · exact notMem_of_hostByte (fun b hb => .inl (hname.2 b hb)) (heq ▸ .head _)
  · obtain ⟨u, w, rfl, hsplit⟩ := rpartition_literal hv6
    rw [heq, hsplit]
    rintro (hwhole | ⟨v6, heq', hinner⟩)
    · have hlen := congrArg List.length hwhole
      simp [heq, PyBytes.latin1] at hlen
    · have hsame := List.append_cancel_right (List.cons.inj (heq.symm.trans heq')).2
      have hmem : '[' ∈ PyBytes.latin1 v6 := hinner ▸ .head _
      exact notMem_of_hostByte hv6.2 (hsame ▸ mem_latin1 (b := 91).mp hmem)

theorem render_of_none (h : a.port = none) : a.render = a.host := by
  rw [render, h, List.append_nil]

theorem not_names_of_connectAuthority (h : a.port = none) {host : List Char} {port : Int}
    (hread : connectAuthority a.render = some (host, port)) : ¬ a.Names host := by
  rw [connectAuthority, decodeIgnore_render, render_of_none h] at hread
  dsimp only at hread
  have hnot := a.not_names_rpartition
  split at hread
  · obtain ⟨n, -, heq⟩ := Option.map_eq_some_iff.mp hread
    cases heq
    exact hnot
  · cases hread
    exact hnot

theorem hostAuthority_name (h : a.port = none) (hname : HostName a.host) :
    Websocket.hostAuthority a.render = some (PyBytes.latin1 a.host, 80) := by
  rw [Websocket.hostAuthority, strip_render, render_of_none h, Websocket.hostPort,
    if_neg (colon_notMem_host hname)]

theorem hostAuthority_literal (h : a.port = none) (hname : ¬ HostName a.host) :
    Websocket.hostAuthority a.render = none := by
  rcases a.host_ok with hname' | ⟨v6, heq, hv6⟩
  · exact absurd hname' hname
  · obtain ⟨u, w, rfl, hsplit⟩ := rpartition_literal hv6
    have hcolon : ':' ∈ PyBytes.latin1 (91 :: (u ++ 58 :: w) ++ [93]) :=
      mem_latin1 (b := 58).mpr (by simp)
    rw [Websocket.hostAuthority, strip_render, render_of_none h, heq, Websocket.hostPort,
      if_pos hcolon, hsplit]
    dsimp only
    rw [PyText.int_eq_none (by decide) (by decide), Option.map_none]

end Authority

theorem Authority.reads_port_iff {a : Authority} {p : Bytes} (h : a.port = some p) (default : Int) :
    (∃ host, (if p.length ≤ PyText.maxStrDigits then
        some (PyBytes.latin1 a.host, (PyText.digitsValue (PyBytes.latin1 p) : Int))
      else none) = some (host, a.portOr default) ∧ a.Names host) ↔
      ∃ p ∈ a.port, p.length ≤ PyText.maxStrDigits := by
  have hport : a.portOr default = PyText.digitsValue (PyBytes.latin1 p) := by rw [portOr, h]
  constructor
  · rintro ⟨host, hread, -⟩
    split at hread
    · next hlen => exact ⟨p, h, hlen⟩
    · cases hread
  · rintro ⟨p', hp', hlen⟩
    cases h.symm.trans hp'
    exact ⟨_, by rw [if_pos hlen, hport], .inl rfl⟩

theorem reads_connectAuthority_iff (bs : Bytes) : Reads connectAuthority 443 bs ↔ ConnectFits bs := by
  refine and_congr (forall_congr' fun a => ?_) (forall_congr' fun _ => ?_)
  · refine forall_congr' fun hrender => ?_
    subst hrender
    cases hport : a.port with
    | none =>
      refine iff_of_false ?_ ?_
      · rintro ⟨host, hread, hnames⟩
        exact Authority.not_names_of_connectAuthority hport hread hnames
      · rintro ⟨p, hp, -⟩
        cases hp
    | some p =>
      rw [Authority.connectAuthority_port hport, ← hport]
      exact Authority.reads_port_iff hport 443
  · rw [connectAuthority]
    dsimp only
    split
    · next hall =>
      rw [Option.isSome_map, PyText.isSome_int_of_allDigits hall]
      exact ⟨fun h _ => h, fun h => h hall⟩
    · next hall => exact iff_of_true rfl fun h => absurd h hall

theorem reads_hostAuthority_iff (bs : Bytes) : Reads Websocket.hostAuthority 80 bs ↔ HostFits bs := by
  refine and_congr (forall_congr' fun a => ?_) (forall_congr' fun _ => ?_)
  · refine forall_congr' fun hrender => ?_
    subst hrender
    cases hport : a.port with
    | none =>
      by_cases hname : HostName a.host
      · rw [Authority.hostAuthority_name hport hname]
        exact iff_of_true ⟨_, by rw [Authority.portOr, hport], .inl rfl⟩ (.inl ⟨rfl, hname⟩)
      · rw [Authority.hostAuthority_literal hport hname]
        refine iff_of_false ?_ ?_
        · rintro ⟨host, hread, -⟩
          cases hread
        · rintro (⟨-, hname'⟩ | ⟨p, hp, -⟩)
          · exact hname hname'
          · cases hp
    | some p =>
      rw [Authority.hostAuthority_port hport, ← hport, Authority.reads_port_iff hport 80, hport]
      exact ⟨.inr, fun h => h.resolve_left fun hnone => by cases hnone.1⟩
  · rw [Websocket.hostAuthority, Websocket.hostPort]
    dsimp only
    split
    · next hcolon =>
      rw [Option.isSome_map]
      exact ⟨fun h _ => h, fun h => h hcolon⟩
    · next hcolon => exact iff_of_true rfl fun h => absurd h hcolon

/-- Both parsers find host and port of an authority, and never raise for anything else, exactly where both
conditions are met. -/
theorem reads_iff (bs : Bytes) : Reads connectAuthority 443 bs ∧ Reads Websocket.hostAuthority 80 bs ↔
    ConnectFits bs ∧ HostFits bs :=
  and_congr (reads_connectAuthority_iff bs) (reads_hostAuthority_iff bs)

/-- `[::1]`. -/
def loopback : Authority where
  host := PyBytes.ofAscii "[::1]"
  port := none
  host_ok := by
    have hall : (PyBytes.ofAscii "::1").all (fun b => hostByte b || b = 58) = true := by decide
    refine .inr ⟨PyBytes.ofAscii "::1", rfl, by decide, fun b hb => ?_⟩
    simpa using List.all_eq_true.mp hall b hb
  port_ok p hp := by cases hp

/-- The `Host` of a loopback address makes `int` raise. -/
theorem loopback_not_read : ¬ ∀ bs, Reads connectAuthority 443 bs ∧ Reads Websocket.hostAuthority 80 bs := by
  intro h
  obtain ⟨host, hread, -⟩ := (h loopback.render).2.1 loopback rfl
  have hraises : Websocket.hostAuthority loopback.render = none := by decide +kernel
  rw [hraises] at hread
  cases hread

end ProxySplit
