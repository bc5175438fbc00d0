import ProxySplit.Streaming.Tunnel

namespace ProxySplit

open Lib Websocket

section Streams

def firstLineOf (bs : Bytes) : Bytes :=
  match cutLine lineFeed bs with
  | some (line, _) => line
  | none => bs

def headerCut (bs : Bytes) : Option (Bytes × Bytes) := cutBlock lineFeed Blank [] bs

def headerBlock (bs : Bytes) : Bytes :=
  match headerCut bs with
  | some (block, _) => block
  | none => bs

def behindHeader (bs : Bytes) : Bytes :=
  match headerCut bs with
  | some (_, rest) => rest
  | none => []

def peerOf (bs : Bytes) : Peer :=
  if isConnect (firstLineOf bs) then .tunnel
  else if mentionsUpgrade (headerBlock bs) then .upstream
  else .internal

def payload : Peer → Bytes → Bytes
  | .internal, bs => bs
  | .tunnel, bs =>
    match cutLine lineFeed bs with
    | some (_, rest) => behindHeader rest
    | none => []
  | .upstream, bs => behindHeader bs

def Rewritten (t : UpgradeTarget) (bs head : Bytes) : Prop :=
  ∃ block rest, headerCut bs = some (block, rest) ∧
    PyBytes.encodeLatin1 (rebuild t (PyBytes.latin1 block)) = some head

/-- The next line is not longer than a reader returns it. -/
def LineFits (bs : Bytes) : Prop :=
  match cutLine lineFeed bs with
  | some (line, _) => line.length ≤ readerLimit + 1
  | none => bs.length ≤ readerLimit

instance (bs : Bytes) : Decidable (LineFits bs) := by
  unfold LineFits; split <;> infer_instance

/-- The request line and the header lead to an upstream, if they ask for one. -/
def HasTarget (urlparse : List Char → Option ParsedUrl) (firstLine combined : Bytes) : Prop :=
  let header := PyBytes.latin1 (firstLine ++ headerBlock combined)
  mentionsUpgrade combined → hasUpgrade header →
    upgradeTarget urlparse firstLine header ∉ [.raises, .badRequest]

instance (urlparse : List Char → Option ParsedUrl) (firstLine combined : Bytes) :
    Decidable (HasTarget urlparse firstLine combined) :=
  inferInstanceAs (Decidable (_ → _ → _))

variable {bs line rest : Bytes}

theorem readline_overrun_iff {r : Reader} : r.readline = .overrun ↔ ¬ LineFits r.buffer := by
  unfold Reader.readline StreamReader.readline LineFits
  cases cutLine lineFeed r.buffer with
  | some cut =>
    dsimp only
    split
    · next hlen => simpa using hlen
    · next hlen => simpa using hlen
  | none =>
    dsimp only
    split
    · next hlen => simpa using hlen
    · next hlen => split <;> simpa using hlen

theorem headerCut_of_cutLine (h : cutLine lineFeed bs = some (line, rest)) :
    headerCut bs =
      if Blank line then some (line, rest)
      else (headerCut rest).map fun cut => (line ++ cut.1, cut.2) := cutBlock_of_cutLine h []

theorem headerCut_of_no_line (h : cutLine lineFeed bs = none) : headerCut bs = none :=
  cutBlock_of_no_line h []

theorem headerBlock_of_cutLine (h : cutLine lineFeed bs = some (line, rest)) :
    headerBlock bs = if Blank line then line else line ++ headerBlock rest := by
  rw [headerBlock, headerCut_of_cutLine h]
  by_cases hblank : Blank line
  · simp only [if_pos hblank]
  · simp only [if_neg hblank, headerBlock]
    cases headerCut rest with
    | none => exact eq_append_of_cutLine h
    | some cut => rfl

theorem behindHeader_of_cutLine (h : cutLine lineFeed bs = some (line, rest)) :
    behindHeader bs = if Blank line then rest else behindHeader rest := by
  rw [behindHeader, headerCut_of_cutLine h]
  by_cases hblank : Blank line
  · simp only [if_pos hblank]
  · simp only [if_neg hblank, behindHeader]
    cases headerCut rest with
    | none => rfl
    | some cut => rfl

theorem behindHeader_of_no_line (h : cutLine lineFeed bs = none) : behindHeader bs = [] := by
  rw [behindHeader, headerCut_of_no_line h]

theorem headerBlock_of_no_line (h : cutLine lineFeed bs = none) : headerBlock bs = bs := by
  rw [headerBlock, headerCut_of_no_line h]

theorem not_blank_of_no_line (h : cutLine lineFeed bs = none) (hne : bs ≠ []) : ¬ Blank bs := by
  rintro (rfl | rfl | rfl)
  · cases h
  · cases h
  · exact hne rfl

theorem readline_of_cutLine (h : cutLine lineFeed bs = some (line, rest))
    (hlen : line.length ≤ readerLimit + 1) (eof : Bool) :
    Reader.readline ⟨bs, eof⟩ = .data line ⟨rest, eof⟩ := by
  unfold Reader.readline StreamReader.readline
  simp only [h]
  rw [if_neg (not_lt.mpr hlen)]

theorem readline_of_no_line (h : cutLine lineFeed bs = none) (hlen : bs.length ≤ readerLimit) :
    Reader.readline ⟨bs, true⟩ = .data bs ⟨[], true⟩ := by
  unfold Reader.readline StreamReader.readline
  simp only [h]
  rw [if_neg (not_lt.mpr hlen), if_pos trivial]

theorem readHeaders_eq {fuel : Nat} (hfuel : bs.length + 2 ≤ fuel) (hfits : LineFits bs)
    (hrest : ∀ line rest, cutLine lineFeed bs = some (line, rest) → rest.length ≤ readerLimit)
    (header : Bytes) :
    readHeaders fuel ⟨bs, true⟩ header =
      some (header ++ headerBlock bs, ⟨behindHeader bs, true⟩) := by
  induction fuel generalizing bs header with
  | zero => omega
  | succ fuel ih =>
    rw [readHeaders]
    unfold LineFits at hfits
    split at hfits
    · next line rest hcut =>
      have happend := eq_append_of_cutLine hcut
      have hlen : rest.length + 2 ≤ fuel := by
        have hpos := List.length_pos_iff.mpr (ne_nil_of_cutLine hcut)
        rw [happend, List.length_append] at hfuel
        omega
      rw [readline_of_cutLine hcut hfits, headerBlock_of_cutLine hcut, behindHeader_of_cutLine hcut]
      by_cases hblank : Blank line
      · simp only [if_pos hblank]
      · simp only [if_neg hblank]
        have hshort := hrest line rest hcut
        have hfits' : LineFits rest := by
          unfold LineFits
          split
          · next l r hcut' =>
            have := congrArg List.length (eq_append_of_cutLine hcut')
            rw [List.length_append] at this
            omega
          · exact hshort
        have hrest' : ∀ l r, cutLine lineFeed rest = some (l, r) → r.length ≤ readerLimit := by
          intro l r hcut'
          have := congrArg List.length (eq_append_of_cutLine hcut')
          rw [List.length_append] at this
          omega
        rw [ih hlen hfits' hrest', List.append_assoc]
    · next hcut =>
      rw [readline_of_no_line hcut hfits, headerBlock_of_no_line hcut, behindHeader_of_no_line hcut]
      by_cases hne : bs = []
      · simp [hne, Blank]
      · simp only [if_neg (not_blank_of_no_line hcut hne)]
        have hnil : LineFits [] := Nat.zero_le _
        have hpos := List.length_pos_iff.mpr hne
        rw [ih (by simp only [List.length_nil]; omega) hnil nofun]
        simp [headerBlock, behindHeader, headerCut, cutBlock]

end Streams

namespace Raw

/-- No byte of the client is lost, sent twice or sent to the wrong peer: what is not sent yet is where the
relay is going to read it, and nothing is left when the relay is over. -/
def Conserves (s : Raw) : Prop :=
  match s.pc with
  | .piping peer sent =>
    peerOf s.received = peer ∧ sent ++ s.reader.buffer = payload peer s.received
  | .ended peer sent => peerOf s.received = peer ∧ sent = payload peer s.received
  | .relay t head fake sent =>
    peerOf s.received = .upstream ∧ Rewritten t s.received head ∧
      sent ++ fake.buffer ++ s.reader.buffer = payload .upstream s.received
  | .relayed t head sent =>
    peerOf s.received = .upstream ∧ Rewritten t s.received head ∧
      sent = payload .upstream s.received ∧ s.reader.buffer = []
  | .failed peer head sent =>
    peerOf s.received = peer ∧ sent <+: payload peer s.received ∧
      (peer = .upstream → ∃ t, Rewritten t s.received head)
  | .dropped | .abandoned => s.received = []
  | .firstLine | .connectHeaders .. | .connecting .. | .peek _ | .dialUpstream .. | .dialInternal _
  | .refused => True

/-- The handler does not give the client up, no upstream is opened for a WebSocket, and the internal
server is not sent what turns out to be a request for one. -/
def Allowed (urlparse : List Char → Option ParsedUrl) (s : Raw) : Label → Prop
  | .timeout =>
    match s.pc with
    | .firstLine => s.received = []
    | .peek firstLine => HasTarget urlparse firstLine firstLine
    | _ => True
  | .run =>
    match s.pc with
    | .firstLine =>
      LineFits s.received ∧
        (isConnect (firstLineOf s.received) → (connectTarget (firstLineOf s.received)).isSome)
    | .connectHeaders .. => LineFits s.reader.buffer
    | .peek firstLine => HasTarget urlparse firstLine (firstLine ++ s.reader.buffer.take 4096)
    | _ => True
  | .accepted =>
    match s.pc with
    | .dialUpstream .. => False
    | .dialInternal _ => mentionsUpgrade (headerBlock s.received) = false
    | _ => True
  | .feed bs =>
    match s.pc with
    | .piping .internal _ => mentionsUpgrade (headerBlock (s.received ++ bs)) = false
    | _ => True
  | .feedEof | .refused | .broken => True

variable {urlparse : List Char → Option ParsedUrl} {s s' : Raw} {l : Label}

inductive Move (urlparse : List Char → Option ParsedUrl) (s : Raw) : Label → Raw → Prop
  | fed (bs : Bytes) (opened : s.Open) (eof : s.reader.eof = false) :
      Move urlparse s (.feed bs) { s with reader := s.reader.feed bs, received := s.received ++ bs }
  | fedEof (eof : s.reader.eof = false) :
      Move urlparse s .feedEof { s with reader := s.reader.feedEof }
  | firstLine (line : Bytes) (r : Reader) (pc : s.pc = .firstLine)
      (read : s.reader.readline = .data line r) :
      Move urlparse s .run { s with reader := r, pc := afterFirstLine line }
  | overrun (pc : s.pc = .firstLine ∨ ∃ host port, s.pc = .connectHeaders host port)
      (read : s.reader.readline = .overrun) : Move urlparse s .run { s with pc := .dropped }
  | headerLine (host : List Char) (port : Int) (line : Bytes) (r : Reader)
      (pc : s.pc = .connectHeaders host port) (read : s.reader.readline = .data line r) :
      Move urlparse s .run { s with
        reader := r
        pc := if Blank line then .connecting host port else .connectHeaders host port }
  | peeked (first peek : Bytes) (r : Reader) (pc : s.pc = .peek first)
      (read : s.reader.read 4096 = .data peek r) :
      Move urlparse s .run { s with reader := r, pc := afterPeek urlparse first peek }
  | piped (peer : Peer) (sent d : Bytes) (r : Reader) (pc : s.pc = .piping peer sent)
      (read : s.reader.read 65536 = .data d r) :
      Move urlparse s .run { s with
        reader := r, pc := if d = [] then .ended peer sent else .piping peer (sent ++ d) }
  | replayed (t : UpgradeTarget) (head sent d : Bytes) (fake r : Reader)
      (pc : s.pc = .relay t head fake sent) (read : fake.read 65536 = .data d r) :
      Move urlparse s .run { s with
        pc := if d = [] then .relayed t head sent else .relay t head r (sent ++ d) }
  | late (pc : s.pc = .firstLine) : Move urlparse s .timeout { s with pc := .dropped }
  | noPeek (first : Bytes) (pc : s.pc = .peek first) :
      Move urlparse s .timeout { s with pc := afterPeek urlparse first [] }
  | tunnelled (host : List Char) (port : Int) (pc : s.pc = .connecting host port) :
      Move urlparse s .accepted { s with pc := .piping .tunnel [] }
  | forwarded (combined : Bytes) (pc : s.pc = .dialInternal combined) :
      Move urlparse s .accepted { s with pc := .piping .internal combined }
  | upgraded (t : UpgradeTarget) (header head : Bytes) (fake : Reader)
      (pc : s.pc = .dialUpstream t header fake)
      (encoded : PyBytes.encodeLatin1 (rebuild t (PyBytes.latin1 header)) = some head) :
      Move urlparse s .accepted { s with pc := .relay t head fake [] }
  | unencodable (t : UpgradeTarget) (header : Bytes) (fake : Reader)
      (pc : s.pc = .dialUpstream t header fake) : Move urlparse s .accepted { s with pc := .dropped }
  | refused : Move urlparse s .refused { s with pc := .refused }
  | broken (peer : Peer) (sent : Bytes) (pc : s.pc = .piping peer sent) :
      Move urlparse s .broken { s with pc := .failed peer [] sent }
  | cutOff (t : UpgradeTarget) (head sent : Bytes)
      (pc : (∃ fake, s.pc = .relay t head fake sent) ∨ s.pc = .relayed t head sent) :
      Move urlparse s .broken { s with pc := .failed .upstream head sent }

theorem move_of_run (h : s.run urlparse = some s') : Move urlparse s .run s' := by
  unfold run at h
  split at h
  · next hpc =>
    split at h
    · next line r hread => cases h; exact .firstLine line r hpc hread
    · next hread => cases h; exact .overrun (.inl hpc) hread
    · cases h
  · next host port hpc =>
    split at h
    · next line r hread =>
      cases h
      rw [hpc]
      exact .headerLine host port line r hpc hread
    · next hread => cases h; exact .overrun (.inr ⟨host, port, hpc⟩) hread
    · cases h
  · next first hpc =>
    split at h
    · next peek r hread => cases h; exact .peeked first peek r hpc hread
    · cases h
    · cases h
  · next peer sent hpc =>
    split at h
    · next d r hread => cases h; exact .piped peer sent d r hpc hread
    · cases h
    · cases h
  · next t head fake sent hpc =>
    split at h
    · next d r hread => cases h; exact .replayed t head sent d fake r hpc hread
    · cases h
    · cases h
  · cases h

theorem move_of_accept (h : s.accept = some s') : Move urlparse s .accepted s' := by
  unfold accept at h
  split at h
  · next host port hpc => cases h; exact .tunnelled host port hpc
  · next combined hpc => cases h; exact .forwarded combined hpc
  · next t header fake hpc =>
    split at h
    · next head hhead => cases h; exact .upgraded t header head fake hpc hhead
    · cases h; exact .unencodable t header fake hpc
  · cases h

theorem move_of_fail (h : s.fail = some s') : Move urlparse s .broken s' := by
  unfold fail at h
  split at h
  · next peer sent hpc => cases h; exact .broken peer sent hpc
  · next t head fake sent hpc => cases h; exact .cutOff t head sent (.inl ⟨fake, hpc⟩)
  · next t head sent hpc => cases h; exact .cutOff t head sent (.inr hpc)
  · cases h

theorem move_of_step (h : s.step urlparse l = some s') : Move urlparse s l s' := by
  cases l with
  | feed bs =>
    simp only [step] at h
    split at h
    · next hc => cases h; exact .fed bs hc.1 hc.2
    · cases h
  | feedEof =>
    simp only [step] at h
    split at h
    · next hc => cases h; exact .fedEof hc.2
    · cases h
  | run => exact move_of_run h
  | timeout =>
    simp only [step] at h
    split at h
    · next hpc => cases h; exact .late hpc
    · next first hpc => cases h; exact .noPeek first hpc
    · cases h
  | accepted => exact move_of_accept h
  | refused =>
    simp only [step] at h
    split at h
    · cases h; exact .refused
    · cases h; exact .refused
    · cases h; exact .refused
    · cases h
  | broken => exact move_of_fail h

def More (s : Raw) (more : Bytes) : Prop := s.reader.eof = true → more = []

/-- The request is a `CONNECT`, and what is behind its header is `f` of what is not read yet. -/
def ForTunnel (s : Raw) (f : Bytes → Bytes) : Prop :=
  ∀ more, s.More more → isConnect (firstLineOf (s.received ++ more)) = true ∧
    payload .tunnel (s.received ++ more) = f (s.reader.buffer ++ more)

/-- The request is none, and `taken` was read of it. -/
structure Direct (s : Raw) (taken : Bytes) : Prop where
  received : s.received = taken ++ s.reader.buffer
  not_connect : ∀ more, s.More more → isConnect (firstLineOf (s.received ++ more)) = false

/-- `first` is the line that `combined` begins with, or the last one. -/
def Begins (s : Raw) (first combined : Bytes) : Prop :=
  (∃ rest, cutLine lineFeed combined = some (first, rest)) ∨
    cutLine lineFeed combined = none ∧ first = combined ∧ s.reader.eof = true ∧ s.reader.buffer = []

/-- A WebSocket handler has read `header` and has left `rest` in the reader it was given. -/
structure Replays (s : Raw) (header rest : Bytes) : Prop where
  read : ∃ first combined, s.Direct combined ∧ s.Begins first combined ∧
    header = first ++ headerBlock combined ∧ rest = behindHeader combined
  received_ne : s.received ≠ []

def Inv (s : Raw) : Prop :=
  match s.pc with
  | .firstLine => s.received = s.reader.buffer
  | .connectHeaders .. => s.ForTunnel behindHeader
  | .connecting .. => s.ForTunnel id
  | .peek first => s.Direct first ∧ s.Begins first first ∧ LineFits first
  | .dialInternal combined => s.Direct combined
  | .dialUpstream _ header fake => s.Replays header fake.buffer
  | .piping .tunnel sent => s.ForTunnel (sent ++ ·)
  | .piping .internal sent => s.Direct sent
  | .piping .upstream _ => False
  | .relay t head fake sent => ∃ header, s.Replays header (sent ++ fake.buffer) ∧
      PyBytes.encodeLatin1 (rebuild t (PyBytes.latin1 header)) = some head
  | .relayed t head sent => ∃ header, s.Replays header sent ∧
      PyBytes.encodeLatin1 (rebuild t (PyBytes.latin1 header)) = some head
  | .abandoned => s.received ≠ []
  | .ended .. | .failed .. | .refused | .dropped => True

section Location

variable {host : List Char} {port : Int} {first combined header : Bytes} {t : UpgradeTarget} {fake : Reader}

theorem Inv.firstLine (h : s.Inv) (hpc : s.pc = .firstLine) : s.received = s.reader.buffer := by
  rwa [Inv, hpc] at h

theorem Inv.connectHeaders (h : s.Inv) (hpc : s.pc = .connectHeaders host port) :
    s.ForTunnel behindHeader := by
  rwa [Inv, hpc] at h

theorem Inv.connecting (h : s.Inv) (hpc : s.pc = .connecting host port) : s.ForTunnel id := by
  rwa [Inv, hpc] at h

theorem Inv.peek (h : s.Inv) (hpc : s.pc = .peek first) :
    s.Direct first ∧ s.Begins first first ∧ LineFits first := by
  rwa [Inv, hpc] at h

theorem Inv.dialInternal (h : s.Inv) (hpc : s.pc = .dialInternal combined) : s.Direct combined := by
  rwa [Inv, hpc] at h

theorem Inv.dialUpstream (h : s.Inv) (hpc : s.pc = .dialUpstream t header fake) :
    s.Replays header fake.buffer := by
  rwa [Inv, hpc] at h

end Location

section Extend

variable {bs first combined header rest : Bytes} {f : Bytes → Bytes}

def extend (s : Raw) (bs : Bytes) (eof : Bool) : Raw :=
  { s with reader := ⟨s.reader.buffer ++ bs, eof⟩, received := s.received ++ bs }

variable (heof : s.reader.eof = false) (bs : Bytes) (eof : Bool)

include heof

theorem ForTunnel.extend (h : s.ForTunnel f) : (s.extend bs eof).ForTunnel f := by
  intro more hmore
  have hall := h (bs ++ more) fun ht => absurd (heof ▸ ht) (by decide)
  rw [← List.append_assoc, ← List.append_assoc] at hall
  exact hall

theorem Direct.extend (h : s.Direct first) : (s.extend bs eof).Direct first where
  received := by
    show s.received ++ bs = _
    rw [h.received, List.append_assoc]
    rfl
  not_connect more _ := by
    have hall := h.not_connect (bs ++ more) fun ht => absurd (heof ▸ ht) (by decide)
    rwa [← List.append_assoc] at hall

theorem Begins.extend (h : s.Begins first combined) : (s.extend bs eof).Begins first combined := by
  rcases h with h | ⟨-, -, ht, -⟩
  · exact .inl h
  · rw [heof] at ht
    cases ht

theorem Replays.extend (h : s.Replays header rest) : (s.extend bs eof).Replays header rest where
  read := by
    obtain ⟨first, combined, hdirect, hbegins, hheader, hrest⟩ := h.read
    exact ⟨first, combined, hdirect.extend heof bs eof, hbegins.extend heof bs eof, hheader, hrest⟩
  received_ne := List.append_ne_nil_of_left_ne_nil h.received_ne _

theorem Inv.extend (h : s.Inv) : (s.extend bs eof).Inv := by
  unfold Inv at h ⊢
  have hpc : (s.extend bs eof).pc = s.pc := rfl
  rw [hpc]
  cases hs : s.pc with
  | firstLine =>
    simp only [hs] at h
    exact congrArg (· ++ bs) h
  | connectHeaders host port | connecting host port =>
    simp only [hs] at h
    exact h.extend heof bs eof
  | peek first =>
    simp only [hs] at h
    exact ⟨h.1.extend heof bs eof, h.2.1.extend heof bs eof, h.2.2⟩
  | dialInternal combined =>
    simp only [hs] at h
    exact h.extend heof bs eof
  | dialUpstream t header fake =>
    simp only [hs] at h
    exact h.extend heof bs eof
  | piping peer sent =>
    simp only [hs] at h
    cases peer with
    | tunnel => exact ForTunnel.extend heof bs eof h
    | internal => exact Direct.extend heof bs eof h
    | upstream => exact h
  | relay t head fake sent | relayed t head sent =>
    simp only [hs] at h
    obtain ⟨header, hreplays, hhead⟩ := h
    exact ⟨header, hreplays.extend heof bs eof, hhead⟩
  | abandoned =>
    simp only [hs] at h
    exact List.append_ne_nil_of_left_ne_nil h bs
  | ended | failed | refused | dropped => trivial

end Extend

section Reading

variable {line first peek : Bytes} {r : Reader}

theorem firstLine_of_readline (h : s.received = s.reader.buffer)
    (hread : s.reader.readline = .data line r) (more : Bytes) (hmore : s.More more) :
    firstLineOf (s.received ++ more) = line ∧
      payload .tunnel (s.received ++ more) = behindHeader (r.buffer ++ more) := by
  obtain ⟨-, ⟨hcut, -⟩ | ⟨hcut, heof, rfl, hnil, -⟩⟩ := StreamReader.readline_cases hread
  · rw [h, firstLineOf, payload, cutLine_append hcut]
    exact ⟨rfl, rfl⟩
  · rw [hmore heof, List.append_nil, h, firstLineOf, payload, hcut, hnil]
    exact ⟨rfl, rfl⟩

theorem lineFits_of_readline (hread : s.reader.readline = .data line r) : LineFits line := by
  obtain ⟨-, ⟨hcut, hlen⟩ | ⟨hcut, -, rfl, -, hlen⟩⟩ := StreamReader.readline_cases hread
  · rw [LineFits, cutLine_self hcut]
    exact hlen
  · rw [LineFits, hcut]
    exact hlen

theorem begins_of_readline (hread : s.reader.readline = .data line r) (pc : RawPc) :
    Begins { s with reader := r, pc := pc } line line := by
  obtain ⟨heof', ⟨hcut, -⟩ | ⟨hcut, heof, rfl, hnil, -⟩⟩ := StreamReader.readline_cases hread
  · exact .inl ⟨[], cutLine_self hcut⟩
  · exact .inr ⟨hcut, rfl, heof'.trans heof, hnil⟩

theorem behindHeader_of_readline (hread : s.reader.readline = .data line r) {more : Bytes}
    (hmore : s.More more) : behindHeader (s.reader.buffer ++ more) =
      if Blank line then r.buffer ++ more else behindHeader (r.buffer ++ more) := by
  obtain ⟨-, ⟨hcut, -⟩ | ⟨hcut, heof, rfl, hnil, -⟩⟩ := StreamReader.readline_cases hread
  · exact behindHeader_of_cutLine (cutLine_append hcut more)
  · rw [hmore heof, List.append_nil, hnil, behindHeader_of_no_line hcut]
    split <;> rfl

theorem Begins.append (h : s.Begins first first) (peek : Bytes)
    (hpeek : peek ≠ [] → s.reader.buffer ≠ []) {r : Reader} (heof : r.eof = s.reader.eof)
    (hrest : s.reader.buffer = [] → r.buffer = []) (pc : RawPc) :
    Begins { s with reader := r, pc := pc } first (first ++ peek) := by
  rcases h with ⟨rest, hcut⟩ | ⟨hcut, -, ht, hnil⟩
  · exact .inl ⟨peek, cutLine_line hcut peek⟩
  · have hnone : peek = [] := by
      by_contra hne
      exact hpeek hne hnil
    rw [hnone, List.append_nil]
    exact .inr ⟨hcut, rfl, heof.trans ht, hrest hnil⟩

theorem Begins.lineFits (h : s.Begins first (first ++ peek)) (hfits : LineFits first)
    (hpeek : peek.length ≤ 4096) : LineFits (first ++ peek) ∧
      ∀ line rest, cutLine lineFeed (first ++ peek) = some (line, rest) → rest.length ≤ readerLimit := by
  rcases h with ⟨rest, hcut⟩ | ⟨hcut, heq, -, -⟩
  · have hfirst := cutLine_self hcut
    rw [LineFits, hfirst] at hfits
    rw [cutLine_line hcut peek] at hcut
    refine ⟨by rw [LineFits, cutLine_line hfirst peek]; exact hfits, ?_⟩
    intro line rest' hcut'
    rw [cutLine_line hfirst peek] at hcut'
    cases hcut'
    exact hpeek.trans (by decide)
  · rw [hcut, ← heq]
    exact ⟨hfits, nofun⟩

theorem ne_nil_of_mentionsUpgrade {bs : Bytes} (h : mentionsUpgrade bs = true) : bs ≠ [] := by
  rintro rfl
  revert h
  decide +kernel

theorem afterPeek_cases (urlparse : List Char → Option ParsedUrl) (hfits : LineFits (first ++ peek))
    (hrest : ∀ line rest, cutLine lineFeed (first ++ peek) = some (line, rest) →
      rest.length ≤ readerLimit) :
    (afterPeek urlparse first peek = .dialInternal (first ++ peek) ∧
        HasTarget urlparse first (first ++ peek)) ∨
      first ++ peek ≠ [] ∧
        ((∃ t, afterPeek urlparse first peek = .dialUpstream t
            (first ++ headerBlock (first ++ peek)) ⟨behindHeader (first ++ peek), true⟩ ∧
            HasTarget urlparse first (first ++ peek)) ∨
          (afterPeek urlparse first peek = .dropped ∨ afterPeek urlparse first peek = .abandoned) ∧
            ¬ HasTarget urlparse first (first ++ peek)) := by
  unfold afterPeek HasTarget
  dsimp only
  by_cases hmentions : mentionsUpgrade (first ++ peek) = true
  · rw [if_pos hmentions, startUpgrade, readHeaders_eq le_rfl hfits hrest]
    dsimp only
    by_cases hupgrade : hasUpgrade (PyBytes.latin1 (first ++ headerBlock (first ++ peek))) = true
    · rw [if_pos hupgrade]
      refine .inr ⟨ne_nil_of_mentionsUpgrade hmentions, ?_⟩
      cases upgradeTarget urlparse first (PyBytes.latin1 (first ++ headerBlock (first ++ peek))) with
      | raises => exact .inr ⟨.inl rfl, fun h => h hmentions hupgrade (by simp)⟩
      | badRequest => exact .inr ⟨.inr rfl, fun h => h hmentions hupgrade (by simp)⟩
      | target t => exact .inl ⟨t, rfl, fun _ _ => by simp⟩
    · rw [if_neg hupgrade]
      exact .inl ⟨rfl, fun _ h => absurd h hupgrade⟩
  · rw [if_neg hmentions]
    exact .inl ⟨rfl, fun h => absurd h hmentions⟩

end Reading

theorem Direct.goTo {taken : Bytes} (h : s.Direct taken) (pc : RawPc) :
    Direct { s with pc := pc } taken := ⟨h.received, h.not_connect⟩

theorem Replays.goTo {header rest : Bytes} (h : s.Replays header rest) (pc : RawPc) :
    Replays { s with pc := pc } header rest where
  read := by
    obtain ⟨first, combined, hdirect, hbegins, hheader, hrest⟩ := h.read
    exact ⟨first, combined, hdirect.goTo pc, hbegins, hheader, hrest⟩
  received_ne := h.received_ne

section Invariant

variable {line first peek : Bytes} {r : Reader}

theorem inv_firstLine (h : s.received = s.reader.buffer) (hread : s.reader.readline = .data line r) :
    Inv { s with reader := r, pc := afterFirstLine line } := by
  have heof := (StreamReader.readline_cases hread).1
  have hfirst := fun more (hmore : r.eof = true → more = []) =>
    firstLine_of_readline h hread more fun ht => hmore (heof.trans ht)
  have hreceived : s.received = line ++ r.buffer := by rw [h, StreamReader.readline_append hread]
  unfold afterFirstLine
  by_cases hconnect : isConnect line = true
  · rw [if_pos hconnect]
    cases connectTarget line with
    | none => trivial
    | some target =>
      intro more hmore
      obtain ⟨hline, hpayload⟩ := hfirst more hmore
      exact ⟨hline ▸ hconnect, hpayload⟩
  · rw [if_neg hconnect]
    refine ⟨⟨hreceived, ?_⟩, begins_of_readline hread _, lineFits_of_readline hread⟩
    intro more hmore
    rw [(hfirst more hmore).1]
    exact Bool.not_eq_true _ ▸ hconnect

theorem inv_headerLine {host : List Char} {port : Int} (h : s.ForTunnel behindHeader)
    (hread : s.reader.readline = .data line r) :
    Inv { s with
      reader := r, pc := if Blank line then .connecting host port else .connectHeaders host port } := by
  have heof := (StreamReader.readline_cases hread).1
  have hall : ∀ more, (r.eof = true → more = []) → isConnect (firstLineOf (s.received ++ more)) = true ∧
      payload .tunnel (s.received ++ more) =
        if Blank line then r.buffer ++ more else behindHeader (r.buffer ++ more) := by
    intro more hmore
    have hmore' : s.More more := fun ht => hmore (heof.trans ht)
    obtain ⟨hconnect, hpayload⟩ := h more hmore'
    exact ⟨hconnect, hpayload.trans (behindHeader_of_readline hread hmore')⟩
  split
  · next hblank =>
    intro more hmore
    have := hall more hmore
    rwa [if_pos hblank] at this
  · next hblank =>
    intro more hmore
    have := hall more hmore
    rwa [if_neg hblank] at this

theorem inv_afterPeek (hdirect : s.Direct first) (hbegins : s.Begins first first) (hfits : LineFits first)
    (heof : r.eof = s.reader.eof) (hpeek : peek ++ r.buffer = s.reader.buffer)
    (hlen : peek.length ≤ 4096) : Inv { s with reader := r, pc := afterPeek urlparse first peek } := by
  have hnil : s.reader.buffer = [] → peek = [] ∧ r.buffer = [] := fun hnil =>
    List.append_eq_nil_iff.mp (hpeek.trans hnil)
  have hbegins' := hbegins.append peek (fun hne hs => hne (hnil hs).1) heof (fun hs => (hnil hs).2)
    (afterPeek urlparse first peek)
  have hdirect' : Direct { s with reader := r, pc := afterPeek urlparse first peek } (first ++ peek) :=
    ⟨by rw [List.append_assoc]; exact hdirect.received.trans (congrArg (first ++ ·) hpeek.symm),
      fun more hmore => hdirect.not_connect more fun ht => hmore (heof.trans ht)⟩
  obtain ⟨hfits', hrest⟩ := hbegins'.lineFits hfits hlen
  rcases afterPeek_cases urlparse hfits' hrest with ⟨hpc, -⟩ | ⟨hne, ⟨t, hpc, -⟩ | ⟨hpc, -⟩⟩
  · rw [hpc] at hdirect' ⊢
    exact hdirect'
  · have hreceived : s.received ≠ [] := by
      have hall : s.received = first ++ peek ++ r.buffer := hdirect'.received
      rw [hall]
      exact List.append_ne_nil_of_left_ne_nil hne _
    rw [hpc] at hdirect' hbegins' ⊢
    exact ⟨⟨first, first ++ peek, hdirect', hbegins', rfl, rfl⟩, hreceived⟩
  · have hreceived : s.received ≠ [] := by
      have hall : s.received = first ++ peek ++ r.buffer := hdirect'.received
      rw [hall]
      exact List.append_ne_nil_of_left_ne_nil hne _
    rcases hpc with hpc | hpc
    · rw [hpc]
      trivial
    · rw [hpc]
      exact hreceived

theorem inv_piped {peer : Peer} {sent d : Bytes} (h : s.Inv) (hpc : s.pc = .piping peer sent)
    (hread : s.reader.read 65536 = .data d r) :
    Inv { s with
      reader := r, pc := if d = [] then .ended peer sent else .piping peer (sent ++ d) } := by
  obtain ⟨heof, -, -, -⟩ := StreamReader.read_cases hread
  have happend := StreamReader.read_append hread
  split
  · trivial
  unfold Inv at h
  simp only [hpc] at h
  cases peer with
  | tunnel =>
    intro more hmore
    have hall := h more fun ht => hmore (heof.trans ht)
    rw [← happend] at hall
    simpa only [List.append_assoc] using hall
  | internal =>
    refine ⟨?_, fun more hmore => h.not_connect more fun ht => hmore (heof.trans ht)⟩
    rw [List.append_assoc, happend]
    exact h.received
  | upstream => exact h

theorem inv_replayed {t : UpgradeTarget} {head sent d : Bytes} {fake r : Reader} (h : s.Inv)
    (hpc : s.pc = .relay t head fake sent) (hread : fake.read 65536 = .data d r) :
    Inv { s with
      pc := if d = [] then .relayed t head sent else .relay t head r (sent ++ d) } := by
  have happend := StreamReader.read_append hread
  obtain ⟨-, hd, hr, -⟩ := StreamReader.read_cases hread
  unfold Inv at h
  simp only [hpc] at h
  obtain ⟨header, hreplays, hhead⟩ := h
  have hmoved : ∀ pc rest, rest = sent ++ fake.buffer → Replays { s with pc := pc } header rest := by
    rintro pc rest rfl
    exact hreplays.goTo pc
  split
  · next hnil =>
    have hempty : fake.buffer = [] := by
      rw [hnil] at hd
      simpa using hd.symm
    exact ⟨header, hmoved _ _ (by rw [hempty, List.append_nil]), hhead⟩
  · exact ⟨header, hmoved _ _ (by rw [List.append_assoc, happend]), hhead⟩

theorem Inv.move (h : s.Inv) (hm : Move urlparse s l s') : s'.Inv := by
  cases hm with
  | fed bs opened eof =>
    have hext := h.extend eof bs false
    rwa [Raw.extend, ← eof] at hext
  | fedEof eof =>
    have hext := h.extend eof [] true
    rwa [Raw.extend, List.append_nil, List.append_nil] at hext
  | firstLine line r pc read => exact inv_firstLine (h.firstLine pc) read
  | overrun pc read => trivial
  | headerLine host port line r pc read => exact inv_headerLine (h.connectHeaders pc) read
  | peeked first peek r pc read =>
    obtain ⟨hdirect, hbegins, hfits⟩ := h.peek pc
    obtain ⟨heof, hpeek, -, -⟩ := StreamReader.read_cases read
    exact inv_afterPeek hdirect hbegins hfits heof (StreamReader.read_append read)
      (hpeek ▸ List.length_take_le _ _)
  | piped peer sent d r pc read => exact inv_piped h pc read
  | replayed t head sent d fake r pc read => exact inv_replayed h pc read
  | late pc => trivial
  | noPeek first pc =>
    obtain ⟨hdirect, hbegins, hfits⟩ := h.peek pc
    exact inv_afterPeek (r := s.reader) hdirect hbegins hfits rfl rfl (Nat.zero_le _)
  | tunnelled host port pc => exact h.connecting pc
  | forwarded combined pc => exact (h.dialInternal pc).goTo _
  | upgraded t header head fake pc encoded => exact ⟨header, (h.dialUpstream pc).goTo _, encoded⟩
  | unencodable t header fake pc => trivial
  | refused => trivial
  | broken peer sent pc => trivial
  | cutOff t head sent pc => trivial

end Invariant

section Upgrade

variable {t : UpgradeTarget} {header head rest : Bytes}

/-- The header block is not what an upstream is sent, or not all that it is to be sent. -/
theorem Replays.not_conserved (h : s.Replays header rest)
    (hhead : PyBytes.encodeLatin1 (rebuild t (PyBytes.latin1 header)) = some head)
    (hrewritten : Rewritten t s.received head) :
    rest ++ s.reader.buffer ≠ payload .upstream s.received := by
  obtain ⟨first, combined, hdirect, hbegins, rfl, rfl⟩ := h.read
  obtain ⟨block, behind, hcut, hblock⟩ := hrewritten
  have hpayload : payload .upstream s.received = behind := by rw [payload, behindHeader, hcut]
  rw [hpayload]
  cases hcombined : headerCut combined with
  | some cut =>
    -- the header was there: it is sent with its first line twice
    obtain ⟨block', behind'⟩ := cut
    have hsame : block' = block := by
      have hall : headerCut s.received = some (block', behind' ++ s.reader.buffer) := by
        rw [hdirect.received]
        exact cutBlock_append hcombined _
      rw [hcut] at hall
      exact congrArg Prod.fst (Option.some.inj hall).symm
    subst hsame
    have hfirst : first.getLast? = some lineFeed := by
      rcases hbegins with ⟨rest', hline⟩ | ⟨hline, -⟩
      · exact getLast?_of_cutLine hline
      · rw [headerCut_of_no_line hline] at hcombined
        cases hcombined
    have hne : block' ≠ [] := by
      rintro rfl
      cases cutBlock_self hcombined
    intro _
    have hlt : (rebuild t (PyBytes.latin1 block')).length <
        (rebuild t (PyBytes.latin1 first ++ PyBytes.latin1 block')).length :=
      length_rebuild_lt (by simp [PyBytes.latin1, hfirst, lineFeed]) (by simpa [PyBytes.latin1] using hne)
    have hsent : headerBlock combined = block' := by rw [headerBlock, hcombined]
    rw [hsent, PyBytes.latin1, List.map_append] at hhead
    have hlen := PyBytes.length_encodeLatin1 hhead
    rw [PyBytes.length_encodeLatin1 hblock] at hlen
    exact absurd hlen hlt.ne
  | none =>
    -- it was not there yet, and its end would have to be sent as the payload
    intro hall
    have hnone : behindHeader combined = [] := by rw [behindHeader, hcombined]
    rw [hnone, List.nil_append] at hall
    subst hall
    have hwhole : [] ++ s.received = block ++ s.reader.buffer := eq_append_of_cutBlock hcut
    rw [List.nil_append, hdirect.received] at hwhole
    have hblock : combined = block := List.append_cancel_right hwhole
    subst hblock
    rw [headerCut, cutBlock_self hcut] at hcombined
    cases hcombined

theorem not_conserves_relay (h : s.Inv) {sent : Bytes}
    (hpc : (∃ fake, s.pc = .relay t head fake sent) ∨ s.pc = .relayed t head sent) :
    ¬ s.Conserves := by
  intro hc
  unfold Inv at h
  unfold Conserves at hc
  rcases hpc with ⟨fake, hpc⟩ | hpc
  · simp only [hpc] at h hc
    obtain ⟨header, hreplays, hhead⟩ := h
    exact hreplays.not_conserved hhead hc.2.1 hc.2.2
  · simp only [hpc] at h hc
    obtain ⟨header, hreplays, hhead⟩ := h
    refine hreplays.not_conserved hhead hc.2.1 ?_
    rw [hc.2.2.2, List.append_nil]
    exact hc.2.2.1

end Upgrade

section Step

variable {line first : Bytes} {r : Reader}

theorem peerOf_of_connect {bs : Bytes} (h : isConnect (firstLineOf bs) = true) :
    peerOf bs = .tunnel := if_pos h

theorem peerOf_internal_iff {bs : Bytes} (h : isConnect (firstLineOf bs) = false) :
    peerOf bs = .internal ↔ mentionsUpgrade (headerBlock bs) = false := by
  rw [peerOf, if_neg (by simp [h])]
  split
  · next hm => simp [hm]
  · next hm => simpa using hm

theorem ne_nil_of_isConnect {bs : Bytes} (h : isConnect bs = true) : bs ≠ [] := by
  rintro rfl
  revert h
  decide +kernel

theorem ForTunnel.received_ne {f : Bytes → Bytes} (h : s.ForTunnel f) : s.received ≠ [] := by
  intro hnil
  have hconnect := (h [] fun _ => rfl).1
  rw [hnil] at hconnect
  exact ne_nil_of_isConnect hconnect rfl

theorem Direct.piping_iff (h : s.Direct first) (bs : Bytes) (hmore : s.More bs) :
    (peerOf (s.received ++ bs) = .internal ∧
      first ++ (s.reader.buffer ++ bs) = payload .internal (s.received ++ bs)) ↔
      mentionsUpgrade (headerBlock (s.received ++ bs)) = false := by
  rw [peerOf_internal_iff (h.not_connect bs hmore)]
  refine and_iff_left ?_
  rw [payload, h.received, List.append_assoc]

theorem conserves_fed {bs : Bytes} (h : s.Inv) (hc : s.Conserves) (hopen : s.Open)
    (heof : s.reader.eof = false) :
    Conserves { s with reader := s.reader.feed bs, received := s.received ++ bs } ↔
      s.Allowed urlparse (.feed bs) := by
  have hmore : s.More bs := fun ht => absurd (heof ▸ ht) (by decide)
  cases hpc : s.pc with
  | firstLine | connectHeaders | connecting | peek | dialUpstream | dialInternal | refused =>
    simp only [Conserves, Allowed, hpc]
  | piping peer sent =>
    unfold Inv at h
    simp only [hpc] at h
    simp only [Conserves, Allowed, hpc]
    cases peer with
    | tunnel =>
      obtain ⟨hconnect, hpayload⟩ := h bs hmore
      exact iff_of_true ⟨peerOf_of_connect hconnect, hpayload.symm⟩ trivial
    | internal => exact Direct.piping_iff h bs hmore
    | upstream => exact h.elim
  | relay t head fake sent => exact absurd hc (not_conserves_relay h (.inl ⟨fake, hpc⟩))
  | relayed t head sent => exact absurd hc (not_conserves_relay h (.inr hpc))
  | abandoned =>
    unfold Inv at h
    unfold Conserves at hc
    simp only [hpc] at h hc
    exact absurd hc h
  | ended | failed | dropped =>
    unfold Open at hopen
    simp only [hpc] at hopen

theorem conserves_firstLine (h : s.received = s.reader.buffer)
    (hpc : s.pc = .firstLine) (hread : s.reader.readline = .data line r) :
    Conserves { s with reader := r, pc := afterFirstLine line } ↔ s.Allowed urlparse .run := by
  have hfits : LineFits s.received := by
    by_contra hlong
    rw [h, ← readline_overrun_iff, hread] at hlong
    cases hlong
  have hline : firstLineOf s.received = line := by
    have hfirst := (firstLine_of_readline h hread [] fun _ => rfl).1
    rwa [List.append_nil] at hfirst
  simp only [Allowed, hpc, hline, hfits, true_and]
  unfold afterFirstLine
  by_cases hconnect : isConnect line = true
  · rw [if_pos hconnect]
    cases connectTarget line with
    | some target => exact iff_of_true trivial fun _ => rfl
    | none =>
      refine iff_of_false ?_ fun hsome => absurd (hsome hconnect) (by simp)
      intro hnil
      have hall : line ++ r.buffer = [] := (StreamReader.readline_append hread).trans (h.symm.trans hnil)
      exact ne_nil_of_isConnect hconnect (List.append_eq_nil_iff.mp hall).1
  · rw [if_neg hconnect]
    exact iff_of_true trivial fun ht => absurd ht hconnect

theorem conserves_overrun (h : s.Inv)
    (hpc : s.pc = .firstLine ∨ ∃ host port, s.pc = .connectHeaders host port)
    (hread : s.reader.readline = .overrun) :
    Conserves { s with pc := .dropped } ↔ s.Allowed urlparse .run := by
  have hlong := readline_overrun_iff.mp hread
  rcases hpc with hpc | ⟨host, port, hpc⟩
  · have hall := h.firstLine hpc
    have hne : s.received ≠ [] := by
      intro hnil
      rw [← hall, hnil] at hlong
      exact hlong (Nat.zero_le _)
    simp only [Allowed, hpc]
    exact iff_of_false hne fun hallowed => hlong (hall ▸ hallowed.1)
  · simp only [Allowed, hpc, hlong, iff_false]
    exact (h.connectHeaders hpc).received_ne

theorem conserves_afterPeek (urlparse : List Char → Option ParsedUrl) (peek : Bytes)
    (hdirect : s.Direct first) (hbegins : s.Begins first first) (hfits : LineFits first)
    (hpeek : peek ++ r.buffer = s.reader.buffer) (hlen : peek.length ≤ 4096) :
    Conserves { s with reader := r, pc := afterPeek urlparse first peek } ↔
      HasTarget urlparse first (first ++ peek) := by
  have hbegins' := hbegins.append (r := s.reader) peek
    (fun hne hs => hne (List.append_eq_nil_iff.mp (hpeek.trans hs)).1) rfl id s.pc
  obtain ⟨hfits', hrest⟩ := hbegins'.lineFits hfits hlen
  have hreceived : s.received = first ++ peek ++ r.buffer := by
    rw [hdirect.received, List.append_assoc, hpeek]
  rcases afterPeek_cases urlparse hfits' hrest with ⟨hpc, htarget⟩ | ⟨hne, ⟨t, hpc, htarget⟩ | ⟨hpc, htarget⟩⟩
  · rw [hpc]
    exact iff_of_true trivial htarget
  · rw [hpc]
    exact iff_of_true trivial htarget
  · have hdrop : s.received ≠ [] := by
      rw [hreceived]
      exact List.append_ne_nil_of_left_ne_nil hne _
    rcases hpc with hpc | hpc
    · rw [hpc]
      exact iff_of_false hdrop htarget
    · rw [hpc]
      exact iff_of_false hdrop htarget

theorem conserves_piped {peer : Peer} {sent d : Bytes} (hc : s.Conserves)
    (hpc : s.pc = .piping peer sent) (hread : s.reader.read 65536 = .data d r) :
    Conserves { s with
      reader := r, pc := if d = [] then .ended peer sent else .piping peer (sent ++ d) } := by
  have happend := StreamReader.read_append hread
  obtain ⟨-, hd, -, -⟩ := StreamReader.read_cases hread
  unfold Conserves at hc
  simp only [hpc] at hc
  obtain ⟨hpeer, hsent⟩ := hc
  split
  · next hnil =>
    have hempty : s.reader.buffer = [] := by
      rw [hnil] at hd
      simpa using hd.symm
    refine ⟨hpeer, ?_⟩
    rwa [hempty, List.append_nil] at hsent
  · refine ⟨hpeer, ?_⟩
    show sent ++ d ++ r.buffer = _
    rw [List.append_assoc, happend]
    exact hsent

theorem conserves_iff_of_move (h : s.Inv) (hc : s.Conserves) (hm : Move urlparse s l s') :
    s'.Conserves ↔ s.Allowed urlparse l := by
  have hinv := h.move hm
  cases hm with
  | fed bs opened eof => exact conserves_fed h hc opened eof
  | fedEof eof => exact iff_of_true hc trivial
  | firstLine line r pc read => exact conserves_firstLine (h.firstLine pc) pc read
  | overrun pc read => exact conserves_overrun h pc read
  | headerLine host port line r pc read =>
    have hfits : LineFits s.reader.buffer := by
      by_contra hlong
      rw [← readline_overrun_iff, read] at hlong
      cases hlong
    simp only [Allowed, pc, hfits, iff_true]
    split <;> trivial
  | peeked first peek r pc read =>
    obtain ⟨hdirect, hbegins, hfits⟩ := h.peek pc
    obtain ⟨-, hpeek, -, -⟩ := StreamReader.read_cases read
    simp only [Allowed, pc, ← hpeek]
    exact conserves_afterPeek urlparse _ hdirect hbegins hfits (StreamReader.read_append read)
      (hpeek ▸ List.length_take_le _ _)
  | piped peer sent d r pc read =>
    simp only [Allowed, pc, iff_true]
    exact conserves_piped hc pc read
  | replayed t head sent d fake r pc read => exact absurd hc (not_conserves_relay h (.inl ⟨fake, pc⟩))
  | late pc => simp only [Allowed, pc, Conserves]
  | noPeek first pc =>
    obtain ⟨hdirect, hbegins, hfits⟩ := h.peek pc
    simp only [Allowed, pc]
    have hiff :=
      conserves_afterPeek (r := s.reader) urlparse [] hdirect hbegins hfits rfl (Nat.zero_le _)
    rwa [List.append_nil] at hiff
  | tunnelled host port pc =>
    obtain ⟨hconnect, hpayload⟩ := h.connecting pc [] fun _ => rfl
    rw [List.append_nil] at hconnect hpayload
    simp only [Allowed, pc, iff_true]
    exact ⟨peerOf_of_connect hconnect, by rw [hpayload, List.append_nil]; rfl⟩
  | forwarded combined pc =>
    simp only [Allowed, pc, Conserves]
    have hiff := (h.dialInternal pc).piping_iff [] fun _ => rfl
    rwa [List.append_nil, List.append_nil] at hiff
  | upgraded t header head fake pc encoded =>
    simp only [Allowed, pc, iff_false]
    exact not_conserves_relay hinv (.inl ⟨fake, rfl⟩)
  | unencodable t header fake pc =>
    simp only [Allowed, pc, iff_false]
    exact (h.dialUpstream pc).received_ne
  | refused => exact iff_of_true trivial trivial
  | broken peer sent pc =>
    unfold Inv at h
    unfold Conserves at hc
    simp only [pc] at h hc
    refine iff_of_true ⟨hc.1, ⟨_, hc.2⟩, ?_⟩ trivial
    rintro rfl
    exact h.elim
  | cutOff t head sent pc => exact absurd hc (not_conserves_relay h pc)

end Step

def OnWebsocket (s : Raw) : Prop :=
  match s.pc with
  | .relay .. | .relayed .. => True
  | _ => False

instance (s : Raw) : Decidable s.OnWebsocket := by
  obtain ⟨reader, received, pc⟩ := s
  cases pc <;> unfold OnWebsocket <;> infer_instance

theorem not_conserves_onWebsocket (h : s.Inv) (hs : s.OnWebsocket) : ¬ s.Conserves := by
  unfold OnWebsocket at hs
  split at hs
  · next t head fake sent hpc => exact not_conserves_relay h (.inl ⟨fake, hpc⟩)
  · next t head sent hpc => exact not_conserves_relay h (.inr hpc)
  · exact hs.elim

theorem piping_drains (urlparse : List Char → Option ParsedUrl) {peer : Peer} {sent : Bytes}
    (hpc : s.pc = .piping peer sent) :
    ∃ n s', (machine urlparse).run s (List.replicate n .run) = some s' ∧ s'.reader.buffer = [] ∧
      s'.received = s.received ∧
      s'.pc = if s.reader.eof then .ended peer (sent ++ s.reader.buffer)
        else .piping peer (sent ++ s.reader.buffer) := by
  obtain ⟨⟨buffer, eof⟩, received, pc⟩ := s
  dsimp only at hpc ⊢
  subst hpc
  induction hn : buffer.length using Nat.strong_induction_on generalizing buffer sent with
  | _ n ih =>
  subst hn
  cases buffer with
  | nil =>
    cases eof with
    | true => exact ⟨1, ⟨⟨[], true⟩, received, .ended peer sent⟩, rfl, rfl, rfl, by simp⟩
    | false => exact ⟨0, _, rfl, rfl, rfl, by simp⟩
  | cons b bs =>
    have hstep : (machine urlparse).step ⟨⟨b :: bs, eof⟩, received, .piping peer sent⟩ .run =
        some ⟨⟨(b :: bs).drop 65536, eof⟩, received, .piping peer (sent ++ (b :: bs).take 65536)⟩ := by
      simp [machine, step, run, StreamReader.read]
    have hlt : ((b :: bs).drop 65536).length < (b :: bs).length := by
      rw [List.length_drop, List.length_cons]
      omega
    obtain ⟨n, s', hrun, hnil, hreceived, hpc⟩ :=
      @ih _ hlt (sent ++ (b :: bs).take 65536) ((b :: bs).drop 65536) rfl
    refine ⟨n + 1, s', ?_, hnil, hreceived, ?_⟩
    · rw [List.replicate_succ, Machine.run, hstep]
      exact hrun
    · rwa [List.append_assoc, List.take_append_drop] at hpc

theorem inv_of_reach (h : (machine urlparse).Reachable s) : s.Inv :=
  h.invariant (I := Inv) (show Inv init from rfl) fun _ _ _ hI _ hstep => hI.move (move_of_step hstep)

/-- The bytes of a client reach whom they are for, all of them and in order, as long as the handler does
not give up in front of the request and the request is none for a WebSocket.  Once it has opened
an upstream for one, it does not meet this any more. -/
theorem conserves_iff (urlparse : List Char → Option ParsedUrl) (s : Raw) :
    ((machine urlparse).Reachable s → (s.OnWebsocket → ¬ s.Conserves) ∧
      ∀ peer sent, s.pc = .piping peer sent → ∃ n s',
        (machine urlparse).run s (List.replicate n .run) = some s' ∧ s'.reader.buffer = [] ∧
          s'.received = s.received ∧
          s'.pc = if s.reader.eof then .ended peer (sent ++ s.reader.buffer)
            else .piping peer (sent ++ s.reader.buffer)) ∧
    ((machine urlparse).Reach (Allowed urlparse) s → s.Conserves ∧
      ∀ l s', s.step urlparse l = some s' → (s'.Conserves ↔ s.Allowed urlparse l)) := by
  refine ⟨fun h => ⟨not_conserves_onWebsocket (inv_of_reach h), fun peer sent => piping_drains urlparse⟩,
    fun h => ?_⟩
  have hconserves : s.Conserves := by
    induction h with
    | init => trivial
    | step hs hok hstep ih =>
      exact (conserves_iff_of_move (inv_of_reach hs.reachable) ih (move_of_step hstep)).mpr hok
  exact ⟨hconserves, fun l s' hstep =>
    conserves_iff_of_move (inv_of_reach h.reachable) hconserves (move_of_step hstep)⟩

section Requests

instance (urlparse : List Char → Option ParsedUrl) (s : Raw) (l : Label) :
    Decidable (s.Allowed urlparse l) := by
  obtain ⟨reader, received, pc⟩ := s
  cases l with
  | timeout | run | accepted => cases pc <;> unfold Allowed <;> infer_instance
  | feed bs =>
    cases pc with
    | piping peer sent => cases peer <;> unfold Allowed <;> infer_instance
    | _ => unfold Allowed; infer_instance
  | feedEof | refused | broken => exact isTrue trivial

/-- What `urlparse` returns for a path. -/
def parsePath (path : List Char) : Option ParsedUrl :=
  some ⟨[], none, some none, path.takeWhile (· ≠ '?'), (path.dropWhile (· ≠ '?')).tail⟩

def pageRequest : Bytes :=
  PyBytes.ofAscii "GET http://origin.example/ HTTP/1.1\r\nHost: origin.example\r\n\r\n"

def sentToInternal (s : Raw) : Prop :=
  match s.pc with
  | .ended .internal sent => sent = pageRequest
  | _ => False

instance (s : Raw) : Decidable s.sentToInternal := by
  obtain ⟨reader, received, pc⟩ := s
  cases pc with
  | ended peer sent => cases peer <;> unfold sentToInternal <;> infer_instance
  | _ => unfold sentToInternal; infer_instance

theorem page_forwarded : ∃ s : Raw, s.sentToInternal ∧ s.Conserves := by
  have hrun : ∃ s : Raw, (machine parsePath).Reach (Allowed parsePath) s ∧ s.sentToInternal :=
    Machine.exists_reach_if [.feed (pageRequest.take 10), .feed ((pageRequest.drop 10).take 30), .run, .run,
      .feed (pageRequest.drop 40), .accepted, .run, .feedEof, .run] (by decide +kernel)
  obtain ⟨s, hs, hsent⟩ := hrun
  exact ⟨s, hsent, ((conserves_iff parsePath s).2 hs).1⟩

def chatRequest : Bytes :=
  PyBytes.ofAscii "GET /chat HTTP/1.1\r\nHost: chat.example\r\nUpgrade: websocket\r\n\r\n"

def chatHead : Bytes :=
  PyBytes.ofAscii ("GET /chat HTTP/1.1\r\nGET /chat HTTP/1.1\r\nHost: chat.example:80\r\n" ++
    "Upgrade: websocket\r\n\r\n")

def LosesFrame (frame : Bytes) (s : Raw) : Prop :=
  match s.pc with
  | .relayed _ head sent => head = chatHead ∧ sent = [] ∧ s.reader.buffer = frame
  | _ => False

instance (frame : Bytes) (s : Raw) : Decidable (s.LosesFrame frame) := by
  obtain ⟨reader, received, pc⟩ := s
  cases pc <;> unfold LosesFrame <;> infer_instance

theorem onWebsocket_of_losesFrame {frame : Bytes} (h : s.LosesFrame frame) : s.OnWebsocket := by
  unfold LosesFrame at h
  unfold OnWebsocket
  split at h
  · next hpc => simp only [hpc]
  · exact h.elim

theorem chat_frame_lost : ¬ ∀ s : Raw, (machine parsePath).Reachable s → s.Conserves := by
  intro h
  have hrun : ∃ s : Raw, (machine parsePath).Reachable s ∧ s.LosesFrame [0x81, 0x00] :=
    Machine.exists_reachable [.feed chatRequest, .run, .run, .accepted, .run, .feed [0x81, 0x00]]
      (by decide +kernel)
  obtain ⟨s, hs, hlost⟩ := hrun
  exact not_conserves_onWebsocket (inv_of_reach hs) (onWebsocket_of_losesFrame hlost) (h s hs)

end Requests

end Raw

end ProxySplit
