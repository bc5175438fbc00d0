import ProxySplit.Lib.Machine
import ProxySplit.Streaming.Websocket

namespace ProxySplit

open Lib Websocket

inductive Peer
  | internal
  | tunnel
  | upstream
  deriving DecidableEq

/-- `first_line.upper().startswith(b"CONNECT ")`. -/
def isConnect (firstLine : Bytes) : Bool :=
  (PyBytes.ofAscii "CONNECT ").isPrefixOf (PyBytes.upper firstLine)

/-- Host and port of a `CONNECT`.  `none` are a line without a target and an `int` that raises. -/
def connectTarget (firstLine : Bytes) : Option (List Char × Int) :=
  match PyBytes.split firstLine with
  | _ :: hp :: _ =>
    let (host, ps) := PyText.rpartition (PyBytes.decodeIgnore hp)
    if PyText.allDigits ps then (PyText.int ps).map fun port => (host, port) else some (host, 443)
  | _ => none

/-- `b"upgrade: websocket" in combined.lower()`. -/
def mentionsUpgrade (bs : Bytes) : Bool :=
  PyBytes.ofAscii "upgrade: websocket" <:+: PyBytes.lower bs

/-- Where the handler of a connection is: in front of its first line, in the header of a `CONNECT`, opening
its tunnel, in front of what it peeks at, opening an upstream for a WebSocket or the connection to the
internal server, and in one of the relays, with what that has written.  `relayed` is past the end of
the pipe to the upstream; `dropped` has closed the connection and `abandoned` just returned. -/
inductive RawPc
  | firstLine
  | connectHeaders (host : List Char) (port : Int)
  | connecting (host : List Char) (port : Int)
  | peek (firstLine : Bytes)
  | dialUpstream (t : UpgradeTarget) (header : Bytes) (fake : Reader)
  | dialInternal (combined : Bytes)
  | piping (peer : Peer) (sent : Bytes)
  | ended (peer : Peer) (sent : Bytes)
  | relay (t : UpgradeTarget) (head : Bytes) (fake : Reader) (sent : Bytes)
  | relayed (t : UpgradeTarget) (head sent : Bytes)
  | failed (peer : Peer) (head sent : Bytes)
  | refused
  | dropped
  | abandoned

/-- A connection of `make_raw_handler`, with all that its client has sent. -/
structure Raw where
  reader : Reader
  received : Bytes
  pc : RawPc

namespace Raw

inductive Label
  | feed (bs : Bytes)
  | feedEof
  | run
  | timeout
  | accepted
  | refused
  | broken

def init : Raw := ⟨⟨[], false⟩, [], .firstLine⟩

def Open (s : Raw) : Prop :=
  match s.pc with
  | .ended .. | .failed .. | .refused | .dropped => False
  | _ => True

instance : (s : Raw) → Decidable s.Open
  | ⟨_, _, .ended ..⟩ | ⟨_, _, .failed ..⟩ | ⟨_, _, .refused⟩ | ⟨_, _, .dropped⟩ => isFalse id
  | ⟨_, _, .firstLine⟩ | ⟨_, _, .connectHeaders ..⟩ | ⟨_, _, .connecting ..⟩ | ⟨_, _, .peek _⟩
  | ⟨_, _, .dialUpstream ..⟩ | ⟨_, _, .dialInternal _⟩ | ⟨_, _, .piping ..⟩ | ⟨_, _, .relay ..⟩
  | ⟨_, _, .relayed ..⟩ | ⟨_, _, .abandoned⟩ => isTrue trivial

def afterFirstLine (firstLine : Bytes) : RawPc :=
  if isConnect firstLine then
    match connectTarget firstLine with
    | some (host, port) => .connectHeaders host port
    | none => .dropped
  else .peek firstLine

/-- `handle_websocket_upgrade` up to the connection to its upstream. -/
def startUpgrade (urlparse : List Char → Option ParsedUrl) (firstLine combined : Bytes) : RawPc :=
  match readHeaders (combined.length + 2) ⟨combined, true⟩ firstLine with
  | none => .dropped
  | some (header, fake) =>
    if hasUpgrade (PyBytes.latin1 header) then
      match upgradeTarget urlparse firstLine (PyBytes.latin1 header) with
      | .raises => .dropped
      | .badRequest => .abandoned
      | .target t => .dialUpstream t header fake
    else .dialInternal combined

def afterPeek (urlparse : List Char → Option ParsedUrl) (firstLine peek : Bytes) : RawPc :=
  let combined := firstLine ++ peek
  if mentionsUpgrade combined then startUpgrade urlparse firstLine combined
  else .dialInternal combined

def run (urlparse : List Char → Option ParsedUrl) (s : Raw) : Option Raw :=
  match s.pc with
  | .firstLine =>
    match s.reader.readline with
    | .data line r => some { s with reader := r, pc := afterFirstLine line }
    | .overrun => some { s with pc := .dropped }
    | .wait => none
  | .connectHeaders host port =>
    match s.reader.readline with
    | .data line r =>
      some { s with reader := r, pc := if Blank line then .connecting host port else s.pc }
    | .overrun => some { s with pc := .dropped }
    | .wait => none
  | .peek first =>
    match s.reader.read 4096 with
    | .data peek r => some { s with reader := r, pc := afterPeek urlparse first peek }
    | .wait | .overrun => none
  | .piping peer sent =>
    match s.reader.read 65536 with
    | .data d r =>
      some { s with reader := r, pc := if d = [] then .ended peer sent else .piping peer (sent ++ d) }
    | .wait | .overrun => none
  | .relay t head fake sent =>
    match fake.read 65536 with
    | .data d fake =>
      some { s with pc := if d = [] then .relayed t head sent else .relay t head fake (sent ++ d) }
    | .wait | .overrun => none
  | _ => none

def accept (s : Raw) : Option Raw :=
  match s.pc with
  | .connecting .. => some { s with pc := .piping .tunnel [] }
  | .dialInternal combined => some { s with pc := .piping .internal combined }
  | .dialUpstream t header fake =>
    match PyBytes.encodeLatin1 (rebuild t (PyBytes.latin1 header)) with
    | some head => some { s with pc := .relay t head fake [] }
    | none => some { s with pc := .dropped }
  | _ => none

def fail (s : Raw) : Option Raw :=
  match s.pc with
  | .piping peer sent => some { s with pc := .failed peer [] sent }
  | .relay _ head _ sent | .relayed _ head sent => some { s with pc := .failed .upstream head sent }
  | _ => none

def step (urlparse : List Char → Option ParsedUrl) (s : Raw) : Label → Option Raw
  | .feed bs =>
    if s.Open ∧ s.reader.eof = false then
      some { s with reader := s.reader.feed bs, received := s.received ++ bs }
    else none
  | .feedEof =>
    if s.Open ∧ s.reader.eof = false then some { s with reader := s.reader.feedEof } else none
  | .run => s.run urlparse
  | .timeout =>
    match s.pc with
    | .firstLine => some { s with pc := .dropped }
    | .peek first => some { s with pc := afterPeek urlparse first [] }
    | _ => none
  | .accepted => s.accept
  | .refused =>
    match s.pc with
    | .connecting .. | .dialInternal _ | .dialUpstream .. => some { s with pc := .refused }
    | _ => none
  | .broken => s.fail

def machine (urlparse : List Char → Option ParsedUrl) : Machine Raw Label := ⟨init, step urlparse⟩

end Raw

end ProxySplit
