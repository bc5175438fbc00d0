import ProxySplit.Streaming.Tunnel

namespace ProxySplit

open Lib

namespace Websocket

def crlf : Bytes := [13, 10]

/-- A request with a request line and header lines, none of which is blank, and what the client sends behind
it. -/
structure UpgradeRequest where
  line : Bytes
  headers : List Bytes
  rest : Bytes
  line_ne : line ≠ []
  line_plain : 13 ∉ line ∧ 10 ∉ line
  headers_ne : ∀ h ∈ headers, h ≠ []
  headers_plain : ∀ h ∈ headers, 13 ∉ h ∧ 10 ∉ h

namespace UpgradeRequest

def firstLine (r : UpgradeRequest) : Bytes := r.line ++ crlf

/-- The lines in a reader behind the first one.  The reader that `make_raw_handler` makes begins with that
line again. -/
def block (r : UpgradeRequest) (again : Bool) : List Bytes :=
  if again then r.line :: r.headers else r.headers

def reader (r : UpgradeRequest) (again eof : Bool) : Reader :=
  ⟨(r.block again).flatMap (· ++ crlf) ++ crlf ++ r.rest, eof⟩

def rawHeaders (r : UpgradeRequest) (again : Bool) : Bytes :=
  r.firstLine ++ (r.block again).flatMap (· ++ crlf) ++ crlf

end UpgradeRequest

/-- What `handle_websocket_upgrade` writes to its upstream.  `none` where it does not get so far. -/
def upstreamRequest (urlparse : List Char → Option ParsedUrl) (firstLine : Bytes) (reader : Reader) :
    Option Bytes :=
  match readHeaders (reader.buffer.length + 2) reader firstLine with
  | none => none
  | some (header, _) =>
    if hasUpgrade (PyBytes.latin1 header) then
      match upgradeTarget urlparse firstLine (PyBytes.latin1 header) with
      | .target t => PyBytes.encodeLatin1 (rebuild t (PyBytes.latin1 header))
      | .raises | .badRequest => none
    else none

/-- The line with which a `Host` line is replaced. -/
def hostLine (t : UpgradeTarget) : List Char :=
  "Host: ".toList ++ t.host ++ ':' :: (toString t.port).toList ++ "\r\n".toList

def Forwarded (t : UpgradeTarget) (h out : Bytes) : Prop :=
  if isHostLine (PyBytes.latin1 h) then PyBytes.latin1 out = hostLine t else out = h ++ crlf

/-- The request line with the path, each header line once and in order, and a blank line. -/
def Faithful (t : UpgradeTarget) (headers : List Bytes) (sent : Bytes) : Prop :=
  ∃ out, List.Forall₂ (Forwarded t) headers out ∧
    sent = PyBytes.ofAscii "GET " ++ PyBytes.encode t.path ++ PyBytes.ofAscii " HTTP/1.1\r\n" ++
      out.flatten ++ crlf

/-- A text that `splitlines` does not split. -/
def Unbroken (line : Bytes) : Prop := ∀ c ∈ PyBytes.latin1 line, PyText.isLineBreak c = false

/-- The request line and the header lines have no other line break of a text, no line is too long, the path is
ASCII, and the host is Latin-1 if it has to be written. -/
structure Plain (t : UpgradeTarget) (r : UpgradeRequest) : Prop where
  line : Unbroken r.line
  headers : ∀ h ∈ r.headers, Unbroken h
  short : ∀ h ∈ r.headers, h.length + 2 ≤ readerLimit + 1
  path : ∀ c ∈ t.path, c.toNat < 128
  host : (∃ h ∈ r.headers, isHostLine (PyBytes.latin1 h) = true) → ∀ c ∈ t.host, c.toNat < 256

variable {r : UpgradeRequest} {t : UpgradeTarget} {urlparse : List Char → Option ParsedUrl}

theorem cutLine_crlf {line : Bytes} (h : 10 ∉ line) (rest : Bytes) :
    cutLine lineFeed (line ++ crlf ++ rest) = some (line ++ crlf, rest) := by
  induction line with
  | nil => rfl
  | cons b line ih =>
    obtain ⟨hb, hline⟩ := not_or.mp (mt List.mem_cons.mpr h)
    have hne : b ≠ lineFeed := fun heq => hb heq.symm
    rw [List.cons_append, List.cons_append, cutLine, if_neg hne, ih hline]
    rfl

theorem readline_crlf {line : Bytes} (h : 10 ∉ line) (rest : Bytes) (eof : Bool) :
    Reader.readline ⟨line ++ crlf ++ rest, eof⟩ =
      if line.length + 2 ≤ readerLimit + 1 then .data (line ++ crlf) ⟨rest, eof⟩ else .overrun := by
  have hlen : (line ++ crlf).length = line.length + 2 := by simp [crlf]
  rw [Reader.readline, StreamReader.readline, cutLine_crlf h]
  simp only [hlen]
  split
  · next hlong => rw [if_neg (by omega)]
  · next hshort => rw [if_pos (by omega)]

theorem not_blank {line : Bytes} (hne : line ≠ []) (h : 13 ∉ line) : ¬ Blank (line ++ crlf) := by
  cases line with
  | nil => exact absurd rfl hne
  | cons b line =>
    have hb : b ≠ 13 := fun heq => h (heq ▸ .head _)
    simp [Blank, crlf, hb]

theorem readHeaders_block {hs : List Bytes} (hne : ∀ h ∈ hs, h ≠ [])
    (hplain : ∀ h ∈ hs, 13 ∉ h ∧ 10 ∉ h) {fuel : Nat} (hfuel : hs.length < fuel) (rest acc : Bytes)
    (eof : Bool) :
    readHeaders fuel ⟨hs.flatMap (· ++ crlf) ++ crlf ++ rest, eof⟩ acc =
      if ∀ h ∈ hs, h.length + 2 ≤ readerLimit + 1 then
        some (acc ++ hs.flatMap (· ++ crlf) ++ crlf, ⟨rest, eof⟩)
      else none := by
  induction hs generalizing fuel acc with
  | nil =>
    obtain ⟨fuel, rfl⟩ := Nat.exists_eq_succ_of_ne_zero (Nat.ne_of_gt hfuel)
    have hread := readline_crlf List.not_mem_nil rest eof
    rw [List.nil_append, if_pos (by decide)] at hread
    rw [List.flatMap_nil, List.nil_append, readHeaders, hread]
    simp [Blank, crlf]
  | cons h hs ih =>
    obtain ⟨fuel, rfl⟩ := Nat.exists_eq_succ_of_ne_zero (Nat.ne_of_gt (Nat.zero_lt_of_lt hfuel))
    obtain ⟨hh, hhs⟩ := List.forall_mem_cons.mp hne
    obtain ⟨⟨hcr, hlf⟩, hrest⟩ := List.forall_mem_cons.mp hplain
    have hbuffer : (h :: hs).flatMap (· ++ crlf) ++ crlf ++ rest =
        h ++ crlf ++ (hs.flatMap (· ++ crlf) ++ crlf ++ rest) := by
      simp only [List.flatMap_cons, List.append_assoc]
    rw [hbuffer, readHeaders, readline_crlf hlf]
    by_cases hshort : h.length + 2 ≤ readerLimit + 1
    · rw [if_pos hshort]
      dsimp only
      rw [if_neg (not_blank hh hcr), ih hhs hrest (Nat.lt_of_succ_lt_succ hfuel)]
      simp only [List.forall_mem_cons, hshort, true_and, List.flatMap_cons, List.append_assoc]
    · rw [if_neg hshort, if_neg fun hall => hshort (hall h (.head _))]

theorem block_ne (r : UpgradeRequest) (again : Bool) : ∀ h ∈ r.block again, h ≠ [] := by
  unfold UpgradeRequest.block
  split
  · exact List.forall_mem_cons.mpr ⟨r.line_ne, r.headers_ne⟩
  · exact r.headers_ne

theorem block_plain (r : UpgradeRequest) (again : Bool) : ∀ h ∈ r.block again, 13 ∉ h ∧ 10 ∉ h := by
  unfold UpgradeRequest.block
  split
  · exact List.forall_mem_cons.mpr ⟨r.line_plain, r.headers_plain⟩
  · exact r.headers_plain

theorem length_le_flatMap_crlf (hs : List Bytes) : hs.length ≤ (hs.flatMap (· ++ crlf)).length := by
  induction hs with
  | nil => exact Nat.zero_le _
  | cons h hs ih =>
    have hcrlf : crlf.length = 2 := rfl
    simp only [List.flatMap_cons, List.length_append, List.length_cons]
    omega

theorem readHeaders_reader (r : UpgradeRequest) (again eof : Bool) :
    readHeaders ((r.reader again eof).buffer.length + 2) (r.reader again eof) r.firstLine =
      if ∀ h ∈ r.block again, h.length + 2 ≤ readerLimit + 1 then
        some (r.rawHeaders again, ⟨r.rest, eof⟩)
      else none := by
  have hfuel : (r.block again).length < (r.reader again eof).buffer.length + 2 := by
    have hle := length_le_flatMap_crlf (r.block again)
    simp only [UpgradeRequest.reader, List.length_append]
    omega
  exact readHeaders_block (block_ne r again) (block_plain r again) hfuel r.rest r.firstLine eof

theorem upstreamRequest_eq {again : Bool} (eof : Bool)
    (hup : hasUpgrade (PyBytes.latin1 (r.rawHeaders again)) = true)
    (ht : upgradeTarget urlparse r.firstLine (PyBytes.latin1 (r.rawHeaders again)) = .target t) :
    upstreamRequest urlparse r.firstLine (r.reader again eof) =
      if ∀ h ∈ r.block again, h.length + 2 ≤ readerLimit + 1 then
        PyBytes.encodeLatin1 (rebuild t (PyBytes.latin1 (r.rawHeaders again)))
      else none := by
  rw [upstreamRequest, readHeaders_reader]
  by_cases hshort : ∀ h ∈ r.block again, h.length + 2 ≤ readerLimit + 1
  · rw [if_pos hshort, if_pos hshort]
    dsimp only
    rw [if_pos hup, ht]
  · rw [if_neg hshort, if_neg hshort]

theorem latin1_rawHeaders (r : UpgradeRequest) (again : Bool) : PyBytes.latin1 (r.rawHeaders again) =
    PyText.joinLines ((r.line :: r.block again ++ [[]]).map PyBytes.latin1) := by
  have hblock : ∀ hs : List Bytes, PyBytes.latin1 (hs.flatMap (· ++ crlf)) =
      PyText.joinLines (hs.map PyBytes.latin1) := by
    intro hs
    induction hs with
    | nil => rfl
    | cons h hs ih =>
      rw [List.flatMap_cons, List.map_cons, PyText.joinLines_cons, ← ih]
      simp [PyBytes.latin1, crlf]
  rw [← hblock]
  simp [UpgradeRequest.rawHeaders, UpgradeRequest.firstLine, crlf]

theorem notMem_latin1 {bs : Bytes} {b : UInt8} (h : b ∉ bs) :
    Char.ofNat b.toNat ∉ PyBytes.latin1 bs := by
  intro hmem
  obtain ⟨b', hb, heq⟩ := List.mem_map.mp hmem
  have hnat := congrArg Char.toNat heq
  rw [PyBytes.toNat_ofNat_byte, PyBytes.toNat_ofNat_byte] at hnat
  exact h (UInt8.toNat_inj.mp hnat ▸ hb)

theorem of_mem_toString {n : Int} {c : Char} (h : c ∈ (toString n).toList) : c.toNat < 128 ∧ c ≠ '\n' := by
  have hnat : ∀ m : Nat, c ∈ m.repr.toList → c.toNat < 128 ∧ c ≠ '\n' := by
    intro m hm
    rw [Nat.toList_repr] at hm
    have hdigit := Nat.isDigit_of_mem_toDigits (by decide) (by decide) hm
    simp only [Char.isDigit, Bool.and_eq_true, decide_eq_true_eq] at hdigit
    have hhi : c.toNat ≤ 57 := UInt32.le_iff_toNat_le.mp hdigit.2
    refine ⟨by omega, ?_⟩
    rintro rfl
    exact absurd hdigit.1 (by decide)
  rw [Int.toString_eq_repr, Int.repr_eq_if] at h
  split at h
  · exact hnat _ h
  · rw [String.toList_append] at h
    rcases List.mem_append.mp h with hdash | hdigits
    · obtain rfl := List.mem_singleton.mp hdash
      decide
    · exact hnat _ hdigits

theorem mem_of_mem_rpartition {s : List Char} {c : Char} (h : c ∈ (PyText.rpartition s).1) : c ∈ s := by
  unfold PyText.rpartition at h
  split at h
  · exact List.mem_reverse.mp (List.dropWhile_subset _ (List.mem_of_mem_tail (List.mem_reverse.mp h)))
  · cases h

theorem lf_notMem_host {firstLine : Bytes} {header : List Char}
    (hparse : ∀ url parsed, urlparse url = some parsed → ∀ host ∈ parsed.hostname, '\n' ∉ host)
    (ht : upgradeTarget urlparse firstLine header = .target t) : '\n' ∉ t.host := by
  unfold upgradeTarget at ht
  split at ht
  · split at ht
    · cases ht
    · next parsed hparsed =>
      split at ht
      · split at ht
        · cases ht
        · cases ht
          cases hhost : parsed.hostname with
          | none =>
            have hnone : '\n' ∉ "None".toList := by decide
            exact hnone
          | some host => exact hparse _ _ hparsed host hhost
      · split at ht
        · cases ht
        · next value hvalue =>
          have hlf : '\n' ∉ value := by
            obtain ⟨line, hline, rfl⟩ := Option.map_eq_some_iff.mp hvalue
            intro hmem
            have hmem' := List.dropWhile_subset _ (List.mem_of_mem_tail (PyText.mem_of_mem_strip hmem))
            exact PyText.not_mem_of_linesFrom List.not_mem_nil (List.mem_of_find?_eq_some hline) hmem'
          split at ht
          · cases ht
          · next host port hport =>
            split at ht
            · cases ht
            · cases ht
              unfold hostPort at hport
              split at hport
              · obtain ⟨n, -, heq⟩ := Option.map_eq_some_iff.mp hport
                cases heq
                exact fun hmem => hlf (mem_of_mem_rpartition hmem)
              · cases hport
                exact hlf
  · cases ht

theorem rewriteLine_nil (t : UpgradeTarget) : rewriteLine t [] = "\r\n".toList := rfl

theorem count_rewriteLine {line : List Char} (hhost : '\n' ∉ t.host) (hline : '\n' ∉ line) :
    (rewriteLine t line).count '\n' = 1 := by
  have hport : t.port.repr.toList.count '\n' = 0 :=
    List.count_eq_zero.mpr fun h => (of_mem_toString (by rwa [Int.toString_eq_repr])).2 rfl
  unfold rewriteLine
  split
  · simp [List.count_append, List.count_eq_zero.mpr hhost, hport]
  · simp [List.count_append, List.count_eq_zero.mpr hline]

theorem count_flatMap_rewriteLine {lines : List (List Char)} (hhost : '\n' ∉ t.host)
    (hlines : ∀ line ∈ lines, '\n' ∉ line) :
    (lines.flatMap (rewriteLine t)).count '\n' = lines.length := by
  induction lines with
  | nil => rfl
  | cons line lines ih =>
    obtain ⟨hline, hrest⟩ := List.forall_mem_cons.mp hlines
    rw [List.flatMap_cons, List.count_append, count_rewriteLine hhost hline, ih hrest, List.length_cons,
      Nat.add_comm]

theorem latin1_crlf : PyBytes.latin1 crlf = "\r\n".toList := by decide

theorem latin1_forwarded {h out : Bytes} (hf : Forwarded t h out) :
    PyBytes.latin1 out = rewriteLine t (PyBytes.latin1 h) := by
  unfold Forwarded at hf
  by_cases hhost : isHostLine (PyBytes.latin1 h) = true
  · rw [if_pos hhost] at hf
    rw [hf, rewriteLine, if_pos hhost]
    rfl
  · rw [if_neg hhost] at hf
    rw [hf, rewriteLine, if_neg hhost, PyBytes.latin1_append, latin1_crlf]

theorem latin1_flatten {hs out : List Bytes} (h : List.Forall₂ (Forwarded t) hs out) :
    PyBytes.latin1 out.flatten = (hs.map PyBytes.latin1).flatMap (rewriteLine t) := by
  induction h with
  | nil => rfl
  | cons hf _ ih =>
    rw [List.flatten_cons, PyBytes.latin1_append, latin1_forwarded hf, ih, List.map_cons, List.flatMap_cons]

theorem latin1_faithful {hs out : List Bytes} (h : List.Forall₂ (Forwarded t) hs out) :
    PyBytes.latin1 (PyBytes.ofAscii "GET " ++ PyBytes.encode t.path ++ PyBytes.ofAscii " HTTP/1.1\r\n" ++
      out.flatten ++ crlf) = "GET ".toList ++ PyBytes.latin1 (PyBytes.encode t.path) ++
      " HTTP/1.1\r\n".toList ++ (hs.map PyBytes.latin1 ++ [[]]).flatMap (rewriteLine t) := by
  have hget : PyBytes.latin1 (PyBytes.ofAscii "GET ") = "GET ".toList := by decide
  have hversion : PyBytes.latin1 (PyBytes.ofAscii " HTTP/1.1\r\n") = " HTTP/1.1\r\n".toList := by decide
  simp only [PyBytes.latin1_append, hget, hversion, latin1_crlf, latin1_flatten h, List.flatMap_append,
    List.flatMap_cons, List.flatMap_nil, List.append_nil, List.append_assoc, rewriteLine_nil]

theorem latin1_hostLine (hhost : ∀ c ∈ t.host, c.toNat < 256) : ∀ c ∈ hostLine t, c.toNat < 256 := by
  have hfront : "Host: ".toList.all (fun c => decide (c.toNat < 256)) = true := by decide
  have hend : "\r\n".toList.all (fun c => decide (c.toNat < 256)) = true := by decide
  have hport : ∀ c ∈ (toString t.port).toList, c.toNat < 256 :=
    fun c hc => (of_mem_toString hc).1.trans (by decide)
  unfold hostLine
  simp only [List.forall_mem_append, List.forall_mem_cons]
  refine ⟨⟨⟨fun c hc => ?_, hhost⟩, by decide, hport⟩, fun c hc => ?_⟩
  · exact of_decide_eq_true (List.all_eq_true.mp hfront c hc)
  · exact of_decide_eq_true (List.all_eq_true.mp hend c hc)

theorem exists_forwarded {hs : List Bytes}
    (hhost : (∃ h ∈ hs, isHostLine (PyBytes.latin1 h) = true) → ∀ c ∈ t.host, c.toNat < 256) :
    ∃ out, List.Forall₂ (Forwarded t) hs out := by
  induction hs with
  | nil => exact ⟨[], .nil⟩
  | cons h hs ih =>
    obtain ⟨out, hout⟩ := ih fun ⟨h', hmem, hh'⟩ => hhost ⟨h', .tail _ hmem, hh'⟩
    by_cases hh : isHostLine (PyBytes.latin1 h) = true
    · have hlatin := latin1_hostLine (hhost ⟨h, .head _, hh⟩)
      obtain ⟨bs, hbs⟩ := Option.isSome_iff_exists.mp (PyBytes.isSome_encodeLatin1.mpr hlatin)
      refine ⟨bs :: out, .cons ?_ hout⟩
      rw [Forwarded, if_pos hh]
      exact PyBytes.latin1_of_encodeLatin1 hbs
    · exact ⟨(h ++ crlf) :: out, .cons (by rw [Forwarded, if_neg hh]) hout⟩

def pieces (r : UpgradeRequest) (again : Bool) : List (List Char) :=
  (PyText.splitlines (PyBytes.latin1 (r.rawHeaders again))).tail

theorem pieces_eq_of_length {again : Bool} (h : (pieces r again).length = r.headers.length + 1) :
    again = false ∧ Unbroken r.line ∧ ∀ h ∈ r.headers, Unbroken h := by
  have hcr : ∀ t ∈ (r.line :: r.block again ++ [[]]).map PyBytes.latin1, '\r' ∉ t := by
    intro t ht
    obtain ⟨bs, hbs, rfl⟩ := List.mem_map.mp ht
    have hnot : 13 ∉ bs := by
      simp only [List.cons_append, List.mem_cons, List.mem_append, List.not_mem_nil, or_false] at hbs
      rcases hbs with rfl | hbs | rfl
      · exact r.line_plain.1
      · exact (block_plain r again bs hbs).1
      · exact List.not_mem_nil
    exact notMem_latin1 hnot
  have hlen := PyText.length_splitlines_joinLines hcr
  rw [← latin1_rawHeaders] at hlen
  rw [pieces, List.length_tail, hlen] at h
  simp only [List.length_map, List.length_append, List.length_cons, List.length_nil] at h
  have hblock : r.headers.length ≤ (r.block again).length := by
    unfold UpgradeRequest.block
    split
    · simp
    · exact le_rfl
  have hagain : again = false := by
    cases again with
    | false => rfl
    | true =>
      simp only [UpgradeRequest.block, if_true, List.length_cons] at h
      omega
  subst hagain
  have hsum : (((r.line :: r.block false ++ [[]]).map PyBytes.latin1).map
      (List.countP PyText.isLineBreak)).sum = 0 := by
    omega
  have hunbroken : ∀ bs ∈ r.line :: r.block false ++ [[]], Unbroken bs := by
    intro bs hbs c hc
    have hzero := List.sum_eq_zero_iff_forall_eq_nat.mp hsum _ (List.mem_map_of_mem (List.mem_map_of_mem hbs))
    exact Bool.eq_false_iff.mpr (List.countP_eq_zero.mp hzero c hc)
  refine ⟨rfl, hunbroken _ (.head _), fun h hh => hunbroken h ?_⟩
  simp [UpgradeRequest.block, hh]

theorem pieces_eq (hline : Unbroken r.line) (hheaders : ∀ h ∈ r.headers, Unbroken h) :
    pieces r false = r.headers.map PyBytes.latin1 ++ [[]] := by
  have hplain : ∀ t ∈ (r.line :: r.block false ++ [[]]).map PyBytes.latin1,
      ∀ c ∈ t, PyText.isLineBreak c = false := by
    intro t ht
    obtain ⟨bs, hbs, rfl⟩ := List.mem_map.mp ht
    simp only [List.cons_append, List.mem_cons, List.mem_append, List.not_mem_nil, or_false] at hbs
    rcases hbs with rfl | hbs | rfl
    · exact hline
    · exact hheaders bs hbs
    · intro c hc
      cases hc
  rw [pieces, latin1_rawHeaders, PyText.splitlines_joinLines hplain]
  simp [UpgradeRequest.block, PyBytes.latin1]

theorem rebuild_eq (t : UpgradeTarget) (r : UpgradeRequest) (again : Bool) :
    rebuild t (PyBytes.latin1 (r.rawHeaders again)) = "GET ".toList ++ t.path ++
      " HTTP/1.1\r\n".toList ++ (pieces r again).flatMap (rewriteLine t) := rfl

theorem plain_of_faithful {again : Bool} {sent : Bytes} (hhost : '\n' ∉ t.host)
    (hshort : ∀ h ∈ r.block again, h.length + 2 ≤ readerLimit + 1)
    (hsent : PyBytes.encodeLatin1 (rebuild t (PyBytes.latin1 (r.rawHeaders again))) = some sent)
    (hfaithful : Faithful t r.headers sent) : again = false ∧ Plain t r := by
  obtain ⟨out, hout, rfl⟩ := hfaithful
  have htexts := PyBytes.latin1_of_encodeLatin1 hsent
  rw [latin1_faithful hout, rebuild_eq] at htexts
  have hheaders : ∀ line ∈ r.headers.map PyBytes.latin1 ++ [[]], '\n' ∉ line := by
    intro line hline
    rcases List.mem_append.mp hline with hline | hline
    · obtain ⟨h, hh, rfl⟩ := List.mem_map.mp hline
      exact notMem_latin1 (r.headers_plain h hh).2
    · rw [List.mem_singleton.mp hline]
      exact List.not_mem_nil
  have hpieces : ∀ line ∈ pieces r again, '\n' ∉ line := fun line hline =>
    PyText.not_mem_of_linesFrom List.not_mem_nil (List.mem_of_mem_tail hline)
  have hcount := congrArg (List.count '\n') htexts
  simp only [List.count_append, PyBytes.count_latin1_encode] at hcount
  rw [count_flatMap_rewriteLine hhost hheaders, count_flatMap_rewriteLine hhost hpieces] at hcount
  simp only [List.length_append, List.length_map, List.length_cons, List.length_nil] at hcount
  have hlength : (pieces r again).length = r.headers.length + 1 := by omega
  obtain ⟨rfl, hline, hunbroken⟩ := pieces_eq_of_length hlength
  rw [pieces_eq hline hunbroken] at htexts
  have hpath := List.append_cancel_right (List.append_cancel_right htexts)
  have hencoded := List.append_cancel_left hpath
  refine ⟨rfl, hline, hunbroken, hshort, ?_, ?_⟩
  · exact PyBytes.ascii_of_latin1_encode (le_of_eq (congrArg List.length hencoded))
  · rintro ⟨h, hh, hhostLine⟩ c hc
    refine PyBytes.isSome_encodeLatin1.mp (Option.isSome_of_eq_some hsent) c ?_
    rw [rebuild_eq, pieces_eq hline hunbroken]
    have hmem : PyBytes.latin1 h ∈ r.headers.map PyBytes.latin1 ++ [[]] :=
      List.mem_append_left _ (List.mem_map_of_mem hh)
    refine List.mem_append_right _ (List.mem_flatMap.mpr ⟨_, hmem, ?_⟩)
    rw [rewriteLine, if_pos hhostLine]
    simp [hc]

theorem faithful_of_plain (h : Plain t r) : ∃ sent,
    PyBytes.encodeLatin1 (rebuild t (PyBytes.latin1 (r.rawHeaders false))) = some sent ∧
      Faithful t r.headers sent := by
  obtain ⟨out, hout⟩ := exists_forwarded h.host
  refine ⟨_, ?_, out, hout, rfl⟩
  rw [rebuild_eq, pieces_eq h.line h.headers]
  have htext := latin1_faithful hout
  rw [PyBytes.latin1_encode h.path] at htext
  rw [← htext, PyBytes.encodeLatin1_latin1]

theorem plain_of_upstreamRequest {again eof : Bool} {sent : Bytes}
    (hparse : ∀ url parsed, urlparse url = some parsed → ∀ host ∈ parsed.hostname, '\n' ∉ host)
    (hup : hasUpgrade (PyBytes.latin1 (r.rawHeaders again)) = true)
    (ht : upgradeTarget urlparse r.firstLine (PyBytes.latin1 (r.rawHeaders again)) = .target t)
    (hsent : upstreamRequest urlparse r.firstLine (r.reader again eof) = some sent)
    (hfaithful : Faithful t r.headers sent) : again = false ∧ Plain t r := by
  rw [upstreamRequest_eq eof hup ht] at hsent
  split at hsent
  · next hshort => exact plain_of_faithful (lf_notMem_host hparse ht) hshort hsent hfaithful
  · cases hsent

theorem startUpgrade_cases {firstLine combined header : Bytes} {fake : Reader}
    (h : Raw.startUpgrade urlparse firstLine combined = .dialUpstream t header fake) :
    readHeaders (combined.length + 2) ⟨combined, true⟩ firstLine = some (header, fake) ∧
      hasUpgrade (PyBytes.latin1 header) = true ∧
      upgradeTarget urlparse firstLine (PyBytes.latin1 header) = .target t := by
  unfold Raw.startUpgrade at h
  split at h
  · cases h
  · next hread =>
    split at h
    · next hup =>
      split at h
      · cases h
      · cases h
      · next ht =>
        cases h
        exact ⟨hread, hup, ht⟩
    · cases h

theorem upstreamRequest_of_startUpgrade {firstLine combined header : Bytes} {fake : Reader}
    (h : Raw.startUpgrade urlparse firstLine combined = .dialUpstream t header fake) :
    upstreamRequest urlparse firstLine ⟨combined, true⟩ =
      PyBytes.encodeLatin1 (rebuild t (PyBytes.latin1 header)) := by
  obtain ⟨hread, hup, ht⟩ := startUpgrade_cases h
  unfold upstreamRequest
  rw [hread]
  dsimp only
  rw [if_pos hup, ht]

theorem not_faithful_of_startUpgrade {header sent : Bytes} {fake : Reader}
    (hparse : ∀ url parsed, urlparse url = some parsed → ∀ host ∈ parsed.hostname, '\n' ∉ host)
    (h : Raw.startUpgrade urlparse r.firstLine (r.reader true true).buffer = .dialUpstream t header fake)
    (hsent : PyBytes.encodeLatin1 (rebuild t (PyBytes.latin1 header)) = some sent) :
    ¬ Faithful t r.headers sent := by
  intro hfaithful
  obtain ⟨hread, hup, ht⟩ := startUpgrade_cases h
  have hheader : header = r.rawHeaders true := by
    have hsame := hread.symm.trans (readHeaders_reader r true true)
    split at hsame
    · exact (Prod.mk.inj (Option.some.inj hsame)).1
    · cases hsame
  subst hheader
  rw [← upstreamRequest_of_startUpgrade h] at hsent
  obtain ⟨hagain, -⟩ := plain_of_upstreamRequest hparse hup ht hsent hfaithful
  cases hagain

/-- An upgrade request whose target was found is sent as it came if its reader holds only the lines behind the
first one and `splitlines` splits no line of it; otherwise it is not. -/
theorem faithful_iff (urlparse : List Char → Option ParsedUrl)
    (hparse : ∀ url parsed, urlparse url = some parsed → ∀ host ∈ parsed.hostname, '\n' ∉ host)
    (r : UpgradeRequest) (again eof : Bool) (t : UpgradeTarget)
    (hup : hasUpgrade (PyBytes.latin1 (r.rawHeaders again)) = true)
    (ht : upgradeTarget urlparse r.firstLine (PyBytes.latin1 (r.rawHeaders again)) = .target t) :
    (∃ sent, upstreamRequest urlparse r.firstLine (r.reader again eof) = some sent ∧
      Faithful t r.headers sent) ↔ again = false ∧ Plain t r := by
  constructor
  · rintro ⟨sent, hsent, hfaithful⟩
    exact plain_of_upstreamRequest hparse hup ht hsent hfaithful
  · rintro ⟨rfl, hplain⟩
    have hshort : ∀ h ∈ r.block false, h.length + 2 ≤ readerLimit + 1 := hplain.short
    rw [upstreamRequest_eq eof hup ht, if_pos hshort]
    exact faithful_of_plain hplain

/-- `urlparse` of a path. -/
def parsePath (path : List Char) : Option ParsedUrl := some ⟨[], none, some none, path, []⟩

def chat : UpgradeRequest where
  line := PyBytes.ofAscii "GET /chat HTTP/1.1"
  headers := ["Host: 10.0.0.1:8080", "Upgrade: websocket", "X-Name: ada"].map PyBytes.ofAscii
  rest := []
  line_ne := by decide
  line_plain := by decide
  headers_ne := by decide
  headers_plain := by decide

def chatOfAda : UpgradeRequest where
  line := PyBytes.ofAscii "GET /chat HTTP/1.1"
  headers := [PyBytes.ofAscii "Host: 10.0.0.1:8080", PyBytes.ofAscii "Upgrade: websocket",
    PyBytes.ofAscii "X-Name: " ++ [0xc4, 0x85] ++ PyBytes.ofAscii "da"]
  rest := []
  line_ne := by decide
  line_plain := by decide
  headers_ne := by decide
  headers_plain := by decide

def chatTarget : UpgradeTarget := ⟨"10.0.0.1".toList, 8080, "/chat".toList⟩

theorem hostname_parsePath (url : List Char) (parsed : ParsedUrl) (h : parsePath url = some parsed) :
    ∀ host ∈ parsed.hostname, '\n' ∉ host := by
  cases h
  intro host hhost
  cases hhost

theorem unbroken_of_all {line : Bytes}
    (h : (PyBytes.latin1 line).all (fun c => !PyText.isLineBreak c) = true) : Unbroken line :=
  fun c hc => by simpa using List.all_eq_true.mp h c hc

theorem plain_chat : Plain chatTarget chat := by
  have hheaders : chat.headers.all (fun h =>
    (PyBytes.latin1 h).all fun c => !PyText.isLineBreak c) = true := by decide
  have hpath : chatTarget.path.all (fun c => decide (c.toNat < 128)) = true := by decide
  have hhost : chatTarget.host.all (fun c => decide (c.toNat < 256)) = true := by decide
  constructor
  · exact unbroken_of_all (by decide)
  · exact fun h hh => unbroken_of_all (List.all_eq_true.mp hheaders h hh)
  · decide
  · exact fun c hc => of_decide_eq_true (List.all_eq_true.mp hpath c hc)
  · exact fun _ c hc => of_decide_eq_true (List.all_eq_true.mp hhost c hc)

theorem faithful_chat : ∃ sent,
    upstreamRequest parsePath chat.firstLine (chat.reader false true) = some sent ∧
      Faithful chatTarget chat.headers sent :=
  (faithful_iff parsePath hostname_parsePath chat false true chatTarget (by decide +kernel)
    (by decide +kernel)).mpr ⟨rfl, plain_chat⟩

/-- The second byte of `ą` is a line break for `splitlines`, and the rest of the name is sent as a header
line. -/
theorem header_split : ¬ ∀ (urlparse : List Char → Option ParsedUrl),
    (∀ url parsed, urlparse url = some parsed → ∀ host ∈ parsed.hostname, '\n' ∉ host) →
    ∀ (r : UpgradeRequest) (eof : Bool) (t : UpgradeTarget),
      hasUpgrade (PyBytes.latin1 (r.rawHeaders false)) = true →
      upgradeTarget urlparse r.firstLine (PyBytes.latin1 (r.rawHeaders false)) = .target t →
      ∃ sent, upstreamRequest urlparse r.firstLine (r.reader false eof) = some sent ∧
        Faithful t r.headers sent := by
  intro h
  have hup : hasUpgrade (PyBytes.latin1 (chatOfAda.rawHeaders false)) = true := by decide +kernel
  have ht : upgradeTarget parsePath chatOfAda.firstLine (PyBytes.latin1 (chatOfAda.rawHeaders false)) =
      .target chatTarget := by decide +kernel
  obtain ⟨sent, hsent, hfaithful⟩ := h parsePath hostname_parsePath chatOfAda true chatTarget hup ht
  have hplain := (plain_of_upstreamRequest hostname_parsePath hup ht hsent hfaithful).2
  have hbreak := hplain.headers _ (.tail _ (.tail _ (.head _))) (Char.ofNat 0x85) (by decide)
  exact absurd hbreak (by decide)

end Websocket

end ProxySplit
