import ProxySplit.Lib.StreamReader
import ProxySplit.PyBytes

namespace ProxySplit

open Lib

abbrev Reader := StreamReader UInt8

def lineFeed : UInt8 := 10

def Blank (line : Bytes) : Prop := line = [13, 10] ∨ line = [10] ∨ line = []

instance (line : Bytes) : Decidable (Blank line) := inferInstanceAs (Decidable (_ ∨ _ ∨ _))

/-- The default `limit` of a `StreamReader`. -/
def readerLimit : Nat := 65536

def Reader.readline (r : Reader) : StreamReader.Answer UInt8 :=
  StreamReader.readline lineFeed readerLimit r

/-- What `urlparse` returns, where reading `port` may raise. -/
structure ParsedUrl where
  scheme : List Char
  hostname : Option (List Char)
  port : Option (Option Int)
  path : List Char
  query : List Char

structure UpgradeTarget where
  host : List Char
  port : Int
  path : List Char
  deriving DecidableEq

/-- How the search for the target ends: by raising, with a `400`, or with a target. -/
inductive UpgradeSearch
  | raises
  | badRequest
  | target (t : UpgradeTarget)
  deriving DecidableEq

namespace Websocket

def isHostLine (line : List Char) : Bool := "host:".toList.isPrefixOf (line.map Char.toLower)

/-- `line.split(":", 1)[1].strip()` of the first `Host` line. -/
def hostValue (header : List Char) : Option (List Char) :=
  ((PyText.splitlines header).find? isHostLine).map fun line =>
    PyText.strip (line.dropWhile (· ≠ ':')).tail

/-- Host and port of the value.  `none` is `ValueError`. -/
def hostPort (value : List Char) : Option (List Char × Int) :=
  if ':' ∈ value then
    let (host, port) := PyText.rpartition value
    (PyText.int port).map fun n => (host, n)
  else some (value, 80)

/-- What stands between the log messages of `handle_websocket_upgrade`. -/
def upgradeTarget (urlparse : List Char → Option ParsedUrl) (firstLine : Bytes)
    (header : List Char) : UpgradeSearch :=
  match PyText.split (PyBytes.decodeReplace firstLine) with
  | _ :: path :: _ =>
    match urlparse path with
    | none => .raises
    | some parsed =>
      if parsed.scheme = "ws".toList ∨ parsed.scheme = "wss".toList then
        match parsed.port with
        | none => .raises
        | some port =>
          let pathOnly := if parsed.path = [] then ['/'] else parsed.path
          .target {
            host := parsed.hostname.getD "None".toList
            port := (port.filter (· ≠ 0)).getD (if parsed.scheme = "wss".toList then 443 else 80)
            path := if parsed.query = [] then pathOnly else pathOnly ++ '?' :: parsed.query }
      else
        match hostValue header with
        | none => .badRequest
        | some value =>
          match hostPort value with
          | none => .raises
          | some (host, port) => if host = [] then .badRequest else .target ⟨host, port, path⟩
  | _ => .badRequest

/-- The lines that `readline` returns up to a blank one, behind `header`.  `none` is `ValueError`. -/
def readHeaders : (fuel : Nat) → Reader → (header : Bytes) → Option (Bytes × Reader)
  | 0, _, _ => none
  | fuel + 1, r, header =>
    match r.readline with
    | .data line r =>
      if Blank line then some (header ++ line, r) else readHeaders fuel r (header ++ line)
    | .wait | .overrun => none

def rewriteLine (t : UpgradeTarget) (line : List Char) : List Char :=
  if isHostLine line then
    "Host: ".toList ++ t.host ++ ':' :: (toString t.port).toList ++ "\r\n".toList
  else line ++ "\r\n".toList

def rebuild (t : UpgradeTarget) (header : List Char) : List Char :=
  "GET ".toList ++ t.path ++ " HTTP/1.1\r\n".toList ++
    (PyText.splitlines header).tail.flatMap (rewriteLine t)

/-- `"upgrade: websocket" in header_str.lower()`. -/
def hasUpgrade (header : List Char) : Bool :=
  "upgrade: websocket".toList <:+: header.map Char.toLower

theorem length_rewriteLine_pos (t : UpgradeTarget) (line : List Char) :
    0 < (rewriteLine t line).length := by
  unfold rewriteLine
  split <;> simp

theorem length_rebuild_lt {t : UpgradeTarget} {first block : List Char}
    (hfirst : first.getLast? = some '\n') (hblock : block ≠ []) :
    (rebuild t block).length < (rebuild t (first ++ block)).length := by
  have hfirst_ne : PyText.splitlines first ≠ [] := by
    refine PyText.linesFrom_ne_nil (.inr ?_)
    rintro rfl
    cases hfirst
  have hsplit : PyText.splitlines (first ++ block) =
      PyText.splitlines first ++ PyText.splitlines block := PyText.linesFrom_append hfirst [] block
  have hblock_ne : PyText.splitlines block ≠ [] := PyText.linesFrom_ne_nil (.inr hblock)
  obtain ⟨line, rest, hlines⟩ := List.exists_cons_of_ne_nil hblock_ne
  have hpos := length_rewriteLine_pos t line
  unfold rebuild
  rw [hsplit, List.tail_append_of_ne_nil hfirst_ne, hlines]
  simp only [List.length_append, List.flatMap_append, List.flatMap_cons, List.tail_cons]
  omega

end Websocket

end ProxySplit
