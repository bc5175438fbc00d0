import ProxySplit.Lib.Duplex
import ProxySplit.Streaming.Conservation

namespace ProxySplit

open Lib Websocket

/-- What the three relays of a client differ in: which pipes close what they write to, the `CONNECT` for a
proxy that speaks HTTP, what the client is told when that says no and when the relay fails, and what the two
sides are sent first. -/
structure RelayJob where
  closes : Side → Bool
  handshake : Option Bytes
  refusal : Bytes
  apology : Bytes
  greeting : Bytes
  replay : Bytes

def RelayJob.texts (job : RelayJob) : List Bytes :=
  [[], job.greeting, job.refusal, job.apology, job.greeting ++ job.apology, job.refusal ++ job.apology]

def badGateway : Bytes := PyBytes.ofAscii "HTTP/1.1 502 Bad Gateway\r\n\r\n"

def proxyAuthorization (creds : Option (List Char)) : List Char :=
  match creds with
  | some c => "Proxy-Authorization: Basic ".toList ++ c ++ "\r\n".toList
  | none => []

def connectRequest (host : List Char) (port : Int) (creds : Option (List Char)) : Bytes :=
  let authority := host ++ ':' :: (toString port).toList
  PyBytes.encode ("CONNECT ".toList ++ authority ++ " HTTP/1.1\r\nHost: ".toList ++ authority ++
    "\r\n".toList ++ proxyAuthorization creds ++ "\r\n".toList)

def handleConnect (socks : Bool) (host : List Char) (port : Int) (creds : Option (List Char)) : RelayJob where
  closes _ := true
  handshake := if socks then none else some (connectRequest host port creds)
  refusal := []
  apology := badGateway
  greeting := PyBytes.ofAscii "HTTP/1.1 200 Connection Established\r\n\r\n"
  replay := []

/-- `handle_websocket_upgrade`, through an HTTP proxy or not, with the request that it rebuilds. -/
def websocketUpgrade (httpProxy : Bool) (host : List Char) (port : Int) (creds : Option (List Char))
    (rebuilt : Bytes) : RelayJob where
  closes _ := true
  handshake := if httpProxy then some (connectRequest host port creds) else none
  refusal := badGateway
  apology := badGateway
  greeting := []
  replay := rebuilt

/-- The relay to the internal server.  `_ps` leaves the client's connection open. -/
def forwardPlain (combined : Bytes) : RelayJob where
  closes
    | .client => true
    | .server => false
  handshake := none
  refusal := []
  apology := []
  greeting := []
  replay := combined

/-- What is awaited in front of the relay: the connection, the lines that answer the `CONNECT`, and that what
is sent first has been taken. -/
inductive Stage
  | dialing
  | status
  | header (status : Bytes)
  | opening

inductive RelayPc
  | before (stage : Stage) (client server : Reader)
  | relaying (d : Duplex UInt8)
  | refused
  | failed (toClient toServer : Bytes)

structure Relay where
  pc : RelayPc
  fromClient : Bytes
  fromServer : Bytes

namespace Relay

inductive Label
  | accepted
  | run
  | broken
  | net (l : Duplex.Label UInt8)

def start (client : Reader) : Relay := ⟨.before .dialing client ⟨[], false⟩, client.buffer, []⟩

def toClient (job : RelayJob) (s : Relay) : Bytes :=
  match s.pc with
  | .before .opening .. => job.greeting
  | .before .. => []
  | .relaying d => job.greeting ++ d.sent .server
  | .refused => job.refusal
  | .failed toClient _ => toClient

def toServer (job : RelayJob) (s : Relay) : Bytes :=
  match s.pc with
  | .before .dialing .. => []
  | .before .opening .. => job.handshake.getD [] ++ job.replay
  | .before .. | .refused => job.handshake.getD []
  | .relaying d => job.handshake.getD [] ++ job.replay ++ d.sent .client
  | .failed _ toServer => toServer

def afterHeaderLine (status line : Bytes) (client server : Reader) : RelayPc :=
  if Blank line then
    if PyBytes.ofAscii "200" <:+: status then .before .opening client server else .refused
  else .before (.header status) client server

def run (job : RelayJob) (s : Relay) : Option Relay :=
  match s.pc with
  | .before .status client server =>
    match server.readline with
    | .data line r => some { s with pc := .before (.header line) client r }
    | .overrun => some { s with pc := .failed job.apology (s.toServer job) }
    | .wait => none
  | .before (.header status) client server =>
    match server.readline with
    | .data line r => some { s with pc := afterHeaderLine status line client r }
    | .overrun => some { s with pc := .failed job.apology (s.toServer job) }
    | .wait => none
  | .before .opening client server => some { s with pc := .relaying (.start client server) }
  | _ => none

def accept (job : RelayJob) (s : Relay) : Option Relay :=
  match s.pc with
  | .before .dialing client server =>
    some { s with pc := .before (if job.handshake.isSome then .status else .opening) client server }
  | _ => none

/-- A connection cannot be opened or does not last, also while the refusal is still being sent. -/
def fail (job : RelayJob) (s : Relay) : Option Relay :=
  match s.pc with
  | .before .. => some { s with pc := .failed (s.toClient job ++ job.apology) (s.toServer job) }
  | .refused =>
    -- only a refusal that has a text is drained
    if job.refusal = [] then none
    else some { s with pc := .failed (job.refusal ++ job.apology) (s.toServer job) }
  | _ => none

/-- What arrives, and in the relay all that happens there. -/
def net (job : RelayJob) (s : Relay) (l : Duplex.Label UInt8) : Option Relay :=
  let arrived (pc : RelayPc) : Relay := ⟨pc, s.fromClient ++ l.fed .client, s.fromServer ++ l.fed .server⟩
  match s.pc, l with
  | .before stage client server, .feed .client bs =>
    if client.eof then none else some (arrived (.before stage (client.feed bs) server))
  | .before stage client server, .feedEof .client => some (arrived (.before stage client.feedEof server))
  | .before .dialing .., _ => none
  | .before stage client server, .feed .server bs =>
    if server.eof then none else some (arrived (.before stage client (server.feed bs)))
  | .before stage client server, .feedEof .server => some (arrived (.before stage client server.feedEof))
  | .relaying d, l => (d.step job.closes 65536 l).map fun d' => arrived (.relaying d')
  | _, _ => none

def step (job : RelayJob) (s : Relay) : Label → Option Relay
  | .accepted => s.accept job
  | .run => s.run job
  | .broken => s.fail job
  | .net l => s.net job l

def machine (job : RelayJob) (client : Reader) : Machine Relay Label := ⟨start client, step job⟩

/-- In the relay nothing arrives any more: its pipes go on, and connections that are closing are lost. -/
def Winding (s : Relay) : Label → Prop
  | .net l => ∃ d, s.pc = .relaying d ∧ d.Winding l
  | .accepted | .run | .broken => False

def behindAnswer (job : RelayJob) (bs : Bytes) : Bytes :=
  if job.handshake.isSome then payload .tunnel bs else bs

def LetThrough (job : RelayJob) (bs : Bytes) : Prop :=
  job.handshake.isSome → PyBytes.ofAscii "200" <:+: firstLineOf bs

/-- The upstream may talk to the client, which has still to get `unread` of what has arrived. -/
def Through (job : RelayJob) (fromServer : Bytes) (eof : Bool) (unread : Bytes) : Prop :=
  ∀ more, (eof = true → more = []) →
    LetThrough job (fromServer ++ more) ∧ behindAnswer job (fromServer ++ more) = unread ++ more

def Answering (fromServer status : Bytes) (server : Reader) : Prop :=
  ∀ more, (server.eof = true → more = []) → firstLineOf (fromServer ++ more) = status ∧
    payload .tunnel (fromServer ++ more) = behindHeader (server.buffer ++ more)

def Stands (job : RelayJob) (fromServer : Bytes) : Stage → Reader → Prop
  | .dialing, server => fromServer = [] ∧ server = ⟨[], false⟩
  | .status, server => job.handshake.isSome ∧ fromServer = server.buffer
  | .header status, server => job.handshake.isSome ∧ Answering fromServer status server
  | .opening, server => Through job fromServer server.eof server.buffer

def Inv (job : RelayJob) (s : Relay) : Prop :=
  match s.pc with
  | .before stage client server => s.fromClient = client.buffer ∧ Stands job s.fromServer stage server
  | .relaying d => s.fromClient = (d.conn .client).received ∧
    Through job s.fromServer (d.conn .server).reader.eof (d.conn .server).received ∧
      ∀ side, d.Conserves side ∧ d.Closes job.closes side
  | .refused => True
  | .failed toClient toServer =>
    toClient ∈ [job.apology, job.greeting ++ job.apology, job.refusal ++ job.apology] ∧
      toServer <+: job.handshake.getD [] ++ job.replay

section Steps

variable {job : RelayJob} {s s' : Relay} {client server : Reader} {fromServer unread status : Bytes}
  {l : Label}

theorem Through.feed (h : Through job fromServer false unread) (bs : Bytes) (eof : Bool) :
    Through job (fromServer ++ bs) eof (unread ++ bs) := by
  intro more _
  have hall := h (bs ++ more) fun ht => by cases ht
  rwa [← List.append_assoc, ← List.append_assoc] at hall

theorem Through.eof {eof : Bool} (h : Through job fromServer eof unread) :
    Through job fromServer true unread := fun more hmore => h more fun _ => hmore rfl

theorem Answering.feed (h : Answering fromServer status server) (heof : server.eof = false) (bs : Bytes) :
    Answering (fromServer ++ bs) status (server.feed bs) := by
  intro more _
  have hall := h (bs ++ more) fun ht => by rw [heof] at ht; cases ht
  rwa [← List.append_assoc, ← List.append_assoc] at hall

theorem Stands.feed {stage : Stage} (h : Stands job fromServer stage server) (hstage : stage ≠ .dialing)
    (heof : server.eof = false) (bs : Bytes) : Stands job (fromServer ++ bs) stage (server.feed bs) := by
  cases stage with
  | dialing => exact absurd rfl hstage
  | status => exact ⟨h.1, by rw [h.2]; rfl⟩
  | header status => exact ⟨h.1, h.2.feed heof bs⟩
  | opening =>
    rw [Stands, heof] at h
    exact h.feed bs _

theorem Stands.feedEof {stage : Stage} (h : Stands job fromServer stage server) (hstage : stage ≠ .dialing) :
    Stands job fromServer stage server.feedEof := by
  cases stage with
  | dialing => exact absurd rfl hstage
  | status => exact h
  | header status => exact ⟨h.1, fun more hmore => h.2 more fun _ => hmore rfl⟩
  | opening => exact Through.eof h

theorem inv_start (client : Reader) : Inv job (start client) := ⟨rfl, rfl, rfl⟩

theorem inv_accept (h : Inv job s) (hstep : s.accept job = some s') : Inv job s' := by
  unfold accept at hstep
  split at hstep
  · next client server hpc =>
    cases hstep
    rw [Inv, hpc] at h
    obtain ⟨hclient, hserver, rfl⟩ := h
    by_cases hshake : job.handshake.isSome = true
    · rw [if_pos hshake]
      exact ⟨hclient, hshake, hserver⟩
    · rw [if_neg hshake]
      refine ⟨hclient, fun more _ => ⟨fun h => absurd h hshake, ?_⟩⟩
      rw [behindAnswer, if_neg hshake, hserver]
  · cases hstep

theorem toServer_before {stage : Stage} (hpc : s.pc = .before stage client server) :
    s.toServer job <+: job.handshake.getD [] ++ job.replay := by
  rw [toServer, hpc]
  cases stage with
  | dialing => exact List.nil_prefix
  | status | header => exact List.prefix_append ..
  | opening => exact List.prefix_refl _

theorem inv_run (h : Inv job s) (hstep : s.run job = some s') : Inv job s' := by
  unfold run at hstep
  split at hstep
  · next client server hpc =>
    rw [Inv, hpc] at h
    obtain ⟨hclient, hshake, hserver⟩ := h
    split at hstep
    · next line r hread =>
      cases hstep
      refine ⟨hclient, hshake, fun more hmore => ?_⟩
      have heof := (StreamReader.readline_cases hread).1
      exact Raw.firstLine_of_readline (s := ⟨server, s.fromServer, .firstLine⟩) hserver hread more
        fun ht => hmore (heof.trans ht)
    · cases hstep
      exact ⟨.head _, toServer_before hpc⟩
    · cases hstep
  · next status client server hpc =>
    rw [Inv, hpc] at h
    obtain ⟨hclient, hshake, hanswer⟩ := h
    split at hstep
    · next line r hread =>
      cases hstep
      have heof := (StreamReader.readline_cases hread).1
      have hrest : ∀ more, (r.eof = true → more = []) → firstLineOf (s.fromServer ++ more) = status ∧
          payload .tunnel (s.fromServer ++ more) =
            if Blank line then r.buffer ++ more else behindHeader (r.buffer ++ more) := by
        intro more hmore
        have hmore' : server.eof = true → more = [] := fun ht => hmore (heof.trans ht)
        rw [← Raw.behindHeader_of_readline (s := ⟨server, s.fromServer, .firstLine⟩) hread hmore']
        exact hanswer more hmore'
      unfold afterHeaderLine
      by_cases hblank : Blank line
      · simp only [if_pos hblank] at hrest ⊢
        by_cases hok : PyBytes.ofAscii "200" <:+: status
        · rw [if_pos hok]
          refine ⟨hclient, fun more hmore => ⟨fun _ => (hrest more hmore).1.symm ▸ hok, ?_⟩⟩
          rw [behindAnswer, if_pos hshake]
          exact (hrest more hmore).2
        · rw [if_neg hok]
          trivial
      · simp only [if_neg hblank] at hrest ⊢
        exact ⟨hclient, hshake, hrest⟩
    · cases hstep
      exact ⟨.head _, toServer_before hpc⟩
    · cases hstep
  · next client server hpc =>
    cases hstep
    rw [Inv, hpc] at h
    exact ⟨h.1, h.2, fun side => ⟨Duplex.conserves_start, Duplex.closes_start⟩⟩
  · cases hstep

theorem inv_fail (hstep : s.fail job = some s') : Inv job s' := by
  unfold fail at hstep
  split at hstep
  · next stage client server hpc =>
    cases hstep
    refine ⟨?_, toServer_before hpc⟩
    rw [toClient, hpc]
    cases stage with
    | dialing | status | header => exact .head _
    | opening => exact .tail _ (.head _)
  · next hpc =>
    obtain ⟨-, hs⟩ := Option.ite_none_left_eq_some.mp hstep
    cases hs
    refine ⟨.tail _ (.tail _ (.head _)), ?_⟩
    rw [toServer, hpc]
    exact List.prefix_append ..
  · cases hstep

theorem inv_net {l : Duplex.Label UInt8} (h : Inv job s) (hstep : s.net job l = some s') : Inv job s' := by
  unfold net at hstep
  split at hstep
  · next stage client server bs hpc =>
    rw [Inv, hpc] at h
    obtain ⟨-, hs⟩ := Option.ite_none_left_eq_some.mp hstep
    cases hs
    exact ⟨congrArg (· ++ bs) h.1, (List.append_nil s.fromServer).symm ▸ h.2⟩
  · next stage client server hpc =>
    rw [Inv, hpc] at h
    cases hstep
    exact ⟨(List.append_nil _).trans h.1, (List.append_nil s.fromServer).symm ▸ h.2⟩
  · cases hstep
  · next stage client server bs hstage hpc =>
    rw [Inv, hpc] at h
    obtain ⟨heof, hs⟩ := Option.ite_none_left_eq_some.mp hstep
    cases hs
    exact ⟨(List.append_nil _).trans h.1, h.2.feed hstage (Bool.eq_false_iff.mpr heof) bs⟩
  · next stage client server hstage hpc =>
    rw [Inv, hpc] at h
    cases hstep
    exact ⟨(List.append_nil _).trans h.1, (List.append_nil s.fromServer).symm ▸ h.2.feedEof hstage⟩
  · next l _ _ d hpc =>
    rw [Inv, hpc] at h
    obtain ⟨hclient, hthrough, hinv⟩ := h
    obtain ⟨d', hd', rfl⟩ := Option.map_eq_some_iff.mp hstep
    obtain ⟨hreceived, hfed, heof⟩ := Duplex.received_step hd' .server
    refine ⟨?_, ?_, fun side => ⟨(hinv side).1.step (by decide) hd', (hinv side).2.step hd'⟩⟩
    · rw [(Duplex.received_step hd' .client).1, ← hclient]
    · rw [hreceived]
      by_cases hnil : l.fed .server = []
      · rw [hnil, List.append_nil, List.append_nil]
        exact fun more hmore => hthrough more fun ht => hmore (heof ht)
      · rw [hfed hnil] at hthrough
        exact hthrough.feed _ _
  · cases hstep

theorem inv_of_reachable (h : (machine job client).Reachable s) : Inv job s := by
  refine h.invariant (I := Inv job) (inv_start client) ?_
  intro s l s' hinv _ hstep
  cases l with
  | accepted => exact inv_accept hinv hstep
  | run => exact inv_run hinv hstep
  | broken => exact inv_fail hstep
  | net l => exact inv_net hinv hstep

end Steps

/-- What the two sides have been sent: what the relay itself says, and then only what the other side has
sent, in order and from its beginning.  The client gets nothing of an upstream that its proxy has not let
through. -/
structure Faithful (job : RelayJob) (s : Relay) : Prop where
  toClient : ∃ said relayed, s.toClient job = said ++ relayed ∧
    said ∈ job.texts ∧ relayed <+: behindAnswer job s.fromServer ∧
    (relayed ≠ [] → said = job.greeting ∧ LetThrough job s.fromServer)
  toServer : s.toServer job <+: job.handshake.getD [] ++ job.replay ++ s.fromClient
  relaying : ∀ d, s.pc = .relaying d →
    s.toClient job ++ (d.conn .server).reader.buffer = job.greeting ++ behindAnswer job s.fromServer ∧
    s.toServer job ++ (d.conn .client).reader.buffer = job.handshake.getD [] ++ job.replay ++ s.fromClient ∧
    ∀ side, d.pipe side = .ended → (d.conn side).reader.buffer = []

section Results

variable {job : RelayJob} {s : Relay} {d : Duplex UInt8} {client : Reader}

theorem Inv.relaying (h : Inv job s) (hpc : s.pc = .relaying d) : LetThrough job s.fromServer ∧
    d.sent .server ++ (d.conn .server).reader.buffer = behindAnswer job s.fromServer ∧
    d.sent .client ++ (d.conn .client).reader.buffer = s.fromClient := by
  rw [Inv, hpc] at h
  obtain ⟨hclient, hthrough, hinv⟩ := h
  obtain ⟨hlet, hbehind⟩ := hthrough [] fun _ => rfl
  rw [List.append_nil] at hlet
  rw [List.append_nil, List.append_nil] at hbehind
  exact ⟨hlet, by rw [(hinv .server).1.kept, hbehind], by rw [(hinv .client).1.kept, hclient]⟩

theorem Inv.faithful (hinv : Inv job s) : Faithful job s := by
  have hsays : ∀ said, s.toClient job = said → said ∈ job.texts →
      ∃ said relayed, s.toClient job = said ++ relayed ∧ said ∈ job.texts ∧
        relayed <+: behindAnswer job s.fromServer ∧
        (relayed ≠ [] → said = job.greeting ∧ LetThrough job s.fromServer) := by
    intro said htold hmem
    exact ⟨said, [], by rw [htold, List.append_nil], hmem, List.nil_prefix, fun h => absurd rfl h⟩
  constructor
  case toClient =>
    cases hpc : s.pc with
    | before stage client server =>
      cases stage with
      | dialing | status | header => exact hsays [] (by rw [Relay.toClient, hpc]) (by simp [RelayJob.texts])
      | opening => exact hsays job.greeting (by rw [Relay.toClient, hpc]) (by simp [RelayJob.texts])
    | relaying d =>
      obtain ⟨hlet, hserver, -⟩ := hinv.relaying hpc
      refine ⟨job.greeting, d.sent .server, by rw [Relay.toClient, hpc], by simp [RelayJob.texts], ?_, fun _ => ⟨rfl, hlet⟩⟩
      exact ⟨_, hserver⟩
    | refused => exact hsays job.refusal (by rw [Relay.toClient, hpc]) (by simp [RelayJob.texts])
    | failed told sent =>
      rw [Inv, hpc] at hinv
      refine hsays told (by rw [Relay.toClient, hpc]) ?_
      have hmem := hinv.1
      simp only [List.mem_cons, List.not_mem_nil, or_false] at hmem
      simp only [RelayJob.texts, List.mem_cons, List.not_mem_nil, or_false]
      tauto
  case toServer =>
    cases hpc : s.pc with
    | before stage client server => exact (toServer_before hpc).trans (List.prefix_append ..)
    | relaying d =>
      obtain ⟨-, -, hclient⟩ := hinv.relaying hpc
      rw [Relay.toServer, hpc, ← hclient]
      exact ⟨_, List.append_assoc ..⟩
    | refused =>
      rw [Relay.toServer, hpc, List.append_assoc]
      exact List.prefix_append ..
    | failed told sent =>
      rw [Inv, hpc] at hinv
      rw [Relay.toServer, hpc]
      exact hinv.2.trans (List.prefix_append ..)
  case relaying =>
    intro d hpc
    obtain ⟨-, hserver, hclient⟩ := hinv.relaying hpc
    rw [Inv, hpc] at hinv
    simp only [Relay.toClient, Relay.toServer, hpc, List.append_assoc, hserver, hclient]
    exact ⟨trivial, trivial, fun side hend => ((hinv.2.2 side).1.ended hend).1⟩

/-- Whatever arrives in whatever pieces, and wherever the relay breaks off. -/
theorem faithful_of_reachable (h : (machine job client).Reachable s) : Faithful job s :=
  (inv_of_reachable h).faithful

/-- Through an HTTP proxy a tunnel gives the client nothing of a proxy that refuses it. -/
theorem tunnel_faithful {host : List Char} {port : Int} {creds : Option (List Char)}
    (h : (machine (handleConnect false host port creds) client).Reachable s) :
    (∃ said relayed, s.toClient (handleConnect false host port creds) = said ++ relayed ∧
      relayed <+: payload .tunnel s.fromServer ∧
      (relayed ≠ [] → said = PyBytes.ofAscii "HTTP/1.1 200 Connection Established\r\n\r\n" ∧
        PyBytes.ofAscii "200" <:+: firstLineOf s.fromServer)) ∧
    s.toServer (handleConnect false host port creds) <+: connectRequest host port creds ++ s.fromClient := by
  have hfaithful := (inv_of_reachable h).faithful
  obtain ⟨said, relayed, htold, -, hprefix, hthrough⟩ := hfaithful.toClient
  refine ⟨⟨said, relayed, htold, hprefix, fun hne => ?_⟩, ?_⟩
  · exact (hthrough hne).imp_right fun hlet => hlet rfl
  · have hserver := hfaithful.toServer
    rwa [handleConnect, if_neg Bool.false_ne_true, Option.getD_some, List.append_nil] at hserver

/-- Without an HTTP proxy the client of a WebSocket gets what the upstream sends, or a `502`. -/
theorem upgrade_faithful {host : List Char} {port : Int} {creds : Option (List Char)} {rebuilt : Bytes}
    (h : (machine (websocketUpgrade false host port creds rebuilt) client).Reachable s) :
    (s.toClient (websocketUpgrade false host port creds rebuilt) <+: s.fromServer ∨
      s.toClient (websocketUpgrade false host port creds rebuilt) ∈ [badGateway, badGateway ++ badGateway]) ∧
    s.toServer (websocketUpgrade false host port creds rebuilt) <+: rebuilt ++ s.fromClient := by
  have hfaithful := (inv_of_reachable h).faithful
  obtain ⟨said, relayed, htold, hsaid, hprefix, hthrough⟩ := hfaithful.toClient
  refine ⟨?_, hfaithful.toServer⟩
  by_cases hnil : relayed = []
  · subst hnil
    rw [htold, List.append_nil]
    simp only [RelayJob.texts, websocketUpgrade, List.nil_append, List.mem_cons, List.not_mem_nil, or_false]
      at hsaid ⊢
    rcases hsaid with rfl | rfl | hsaid | hsaid | hsaid | hsaid
    · exact .inl List.nil_prefix
    · exact .inl List.nil_prefix
    · exact .inr (.inl hsaid)
    · exact .inr (.inl hsaid)
    · exact .inr (.inl hsaid)
    · exact .inr (.inr hsaid)
  · rw [htold, (hthrough hnil).1]
    exact .inl hprefix

theorem plain_faithful {combined : Bytes} (h : (machine (forwardPlain combined) client).Reachable s) :
    s.toClient (forwardPlain combined) <+: s.fromServer ∧
      s.toServer (forwardPlain combined) <+: combined ++ s.fromClient := by
  have hfaithful := (inv_of_reachable h).faithful
  obtain ⟨said, relayed, htold, hsaid, hprefix, -⟩ := hfaithful.toClient
  have hnil : said = [] := by
    simpa [RelayJob.texts, forwardPlain] using hsaid
  rw [hnil, List.nil_append] at htold
  exact ⟨htold ▸ hprefix, hfaithful.toServer⟩

theorem reach_winding {d' : Duplex UInt8} (hpc : s.pc = .relaying d)
    (h : (Machine.mk d (Duplex.step job.closes 65536)).Reach Duplex.Winding d') :
    (Machine.mk s (step job)).Reach Winding { s with pc := .relaying d' } := by
  induction h with
  | init =>
    rw [← hpc]
    exact .init
  | @step t l t' _ hl ht ih =>
    have hok : Winding { s with pc := .relaying t } (.net l) := ⟨t, rfl, hl⟩
    refine .step ih hok ?_
    have hquiet : l.fed .client = [] ∧ l.fed .server = [] := by
      cases l with
      | feed => cases hl
      | feedEof | run | fail | finish => exact ⟨rfl, rfl⟩
    have hstep : t.step job.closes 65536 l = some t' := ht
    simp only [step, net, hstep, hquiet, Option.map_some, List.append_nil]

/-- Once one side is at its end, a relay whose pipes close what they write to comes to its own end without
new data: only connections that a stopped pipe has closed are lost, and no pipe that did not break has left
anything behind. -/
theorem exists_end (hcloses : ∀ side, job.closes side = true) (h : (machine job client).Reachable s)
    (hpc : s.pc = .relaying d) (hover : ∃ side, d.pipe side ≠ .running ∨ (d.conn side).reader.eof = true) :
    (∀ side, d.pipe side ≠ .running → (d.conn side.other).closing = true) ∧
    ∃ s' d', (Machine.mk s (step job)).Reach Winding s' ∧ s'.pc = .relaying d' ∧
      s'.fromClient = s.fromClient ∧ s'.fromServer = s.fromServer ∧ (∀ side, d'.pipe side ≠ .running) ∧
      (d.pipe .server ≠ .failed → s'.toClient job = job.greeting ++ behindAnswer job s.fromServer) ∧
      (d.pipe .client ≠ .failed → s'.toServer job = job.handshake.getD [] ++ job.replay ++ s.fromClient) := by
  have hinv := inv_of_reachable h
  obtain ⟨-, hserver, hclient⟩ := hinv.relaying hpc
  rw [Inv, hpc] at hinv
  obtain ⟨-, -, hboth⟩ := hinv
  obtain ⟨d', hreach, -, hend⟩ := Duplex.exists_finish (n := 65536) (by decide) hcloses hboth hover
  refine ⟨fun side => (hboth side).2.closed (hcloses side), { s with pc := .relaying d' }, d',
    reach_winding hpc hreach, rfl, rfl, rfl, fun side => (hend side).1, ?_, ?_⟩
  · intro hok
    change job.greeting ++ d'.sent .server = _
    rw [(hend .server).2 hok, ← (hboth .server).1.kept, hserver]
  · intro hok
    change job.handshake.getD [] ++ job.replay ++ d'.sent .client = _
    rw [(hend .client).2 hok, ← (hboth .client).1.kept, hclient]

end Results

section Example

def exampleTunnel : RelayJob := handleConnect false "origin.example".toList 443 none

def letThrough : List Label :=
  [.accepted, .net (.feed .server (PyBytes.ofAscii "HTTP/1.1 200 OK\r\n\r\nhello")), .run, .run, .run]

def relaying? (s : Relay) : Option (Duplex UInt8) :=
  match s.pc with
  | .relaying d => some d
  | _ => none

theorem pc_of_relaying? {s : Relay} {d : Duplex UInt8} (h : s.relaying? = some d) : s.pc = .relaying d := by
  unfold relaying? at h
  split at h
  · next d' hpc => rw [hpc, Option.some.inj h]
  · cases h

theorem faithful_tunnel : ∃ s, (machine exampleTunnel ⟨[], false⟩).Reachable s ∧
    s.toClient exampleTunnel =
      PyBytes.ofAscii "HTTP/1.1 200 Connection Established\r\n\r\nhello" ∧
    Faithful exampleTunnel s := by
  obtain ⟨s, hs, htold⟩ := Machine.exists_reachable (M := machine exampleTunnel ⟨[], false⟩)
    (P := fun s => s.toClient exampleTunnel =
      PyBytes.ofAscii "HTTP/1.1 200 Connection Established\r\n\r\nhello")
    (letThrough ++ [.net (.run .server)]) (by decide +kernel)
  exact ⟨s, hs, htold, faithful_of_reachable hs⟩

theorem tunnel_ends : ∃ s, (machine exampleTunnel ⟨[], false⟩).Reachable s ∧
    ∃ s' d', (Machine.mk s (step exampleTunnel)).Reach Winding s' ∧ s'.pc = .relaying d' ∧
      (∀ side, d'.pipe side ≠ .running) ∧
      s'.toClient exampleTunnel = exampleTunnel.greeting ++ behindAnswer exampleTunnel s.fromServer := by
  obtain ⟨s, hs, hover⟩ := Machine.exists_reachable (M := machine exampleTunnel ⟨[], false⟩)
    (P := fun s => (s.relaying?.any fun d =>
      (d.conn .client).reader.eof && d.pipe .server == .running) = true)
    (letThrough ++ [.net (.feedEof .client)]) (by decide +kernel)
  obtain ⟨d, hd, hend⟩ := (Option.any_eq_true ..).mp hover
  obtain ⟨heof, hrunning⟩ := Bool.and_eq_true_iff.mp hend
  have hpipe : d.pipe .server = .running := eq_of_beq hrunning
  obtain ⟨-, s', d', hreach, hpc, -, -, hover, htold, -⟩ :=
    exists_end (fun _ => rfl) hs (pc_of_relaying? hd) ⟨.client, .inr heof⟩
  exact ⟨s, hs, s', d', hreach, hpc, hover, htold (by rw [hpipe]; decide)⟩

end Example

end Relay

end ProxySplit
