import ProxySplit.Lib.Machine
import ProxySplit.Lib.StreamReader
import Mathlib.Logic.Function.Basic

universe u

namespace ProxySplit.Lib

inductive Side
  | client
  | server
  deriving DecidableEq

def Side.other : Side → Side
  | .client => .server
  | .server => .client

@[simp] theorem Side.other_other (d : Side) : d.other.other = d := by
  cases d with
  | client | server => rfl

@[simp] theorem Side.other_ne (d : Side) : d.other ≠ d := by
  cases d with
  | client | server => exact fun h => by cases h

theorem Side.eq_or_eq_other (d e : Side) : e = d ∨ e = d.other := by
  cases d with
  | client => cases e with
    | client => exact .inl rfl
    | server => exact .inr rfl
  | server => cases e with
    | client => exact .inr rfl
    | server => exact .inl rfl

/-- A connection with all that has arrived on it.  Nothing arrives any more once it is closing. -/
structure Conn (α : Type u) where
  reader : StreamReader α
  received : List α
  closing : Bool

inductive Pipe
  | running
  | ended
  | failed
  deriving DecidableEq

structure Duplex (α : Type u) where
  conn : Side → Conn α
  pipe : Side → Pipe
  sent : Side → List α

namespace Duplex

variable {α : Type u}

inductive Label (α : Type u)
  | feed (d : Side) (bs : List α)
  | feedEof (d : Side)
  | run (d : Side)
  | fail (d : Side)
  | finish

def Label.fed (d : Side) : Label α → List α
  | .feed e bs => if e = d then bs else []
  | .feedEof _ | .run _ | .fail _ | .finish => []

def setConn (s : Duplex α) (d : Side) (c : Conn α) : Duplex α := { s with conn := Function.update s.conn d c }

def close (s : Duplex α) (d : Side) : Duplex α := s.setConn d { s.conn d with closing := true }

/-- The pipe that reads `d` is over.  `closes` says whether it closes what it writes to. -/
def leave (closes : Side → Bool) (s : Duplex α) (d : Side) (how : Pipe) : Duplex α :=
  let s' := { s with pipe := Function.update s.pipe d how }
  if closes d then s'.close d.other else s'

def pass (s : Duplex α) (d : Side) (bs : List α) (r : StreamReader α) : Duplex α :=
  { s.setConn d { s.conn d with reader := r } with sent := Function.update s.sent d (s.sent d ++ bs) }

def run (closes : Side → Bool) (n : Nat) (s : Duplex α) (d : Side) : Option (Duplex α) :=
  if s.pipe d = .running then
    match (s.conn d).reader.read n with
    | .data bs r => some (if bs = [] then s.leave closes d .ended else s.pass d bs r)
    | .wait | .overrun => none
  else none

def step (closes : Side → Bool) (n : Nat) (s : Duplex α) : Label α → Option (Duplex α)
  | .feed d bs =>
    if (s.conn d).reader.eof = false ∧ (s.conn d).closing = false then
      some (s.setConn d { s.conn d with
        reader := (s.conn d).reader.feed bs, received := (s.conn d).received ++ bs })
    else none
  | .feedEof d => some (s.setConn d { s.conn d with reader := (s.conn d).reader.feedEof })
  | .run d => s.run closes n d
  | .fail d => if s.pipe d = .running then some (s.leave closes d .failed) else none
  | .finish => if s.pipe .client ≠ .running ∧ s.pipe .server ≠ .running then some (s.close .client) else none

def start (client server : StreamReader α) : Duplex α where
  conn
    | .client => ⟨client, client.buffer, false⟩
    | .server => ⟨server, server.buffer, false⟩
  pipe _ := .running
  sent _ := []

def machine (closes : Side → Bool) (n : Nat) (client server : StreamReader α) :
    Machine (Duplex α) (Label α) :=
  ⟨start client server, step closes n⟩

section Fields

variable {closes : Side → Bool} {s : Duplex α} {d e : Side} {c : Conn α} {how : Pipe} {bs : List α}
  {r : StreamReader α}

@[simp] theorem setConn_conn : (s.setConn d c).conn e = if e = d then c else s.conn e := by
  rw [setConn]
  exact Function.update_apply ..

@[simp] theorem setConn_pipe : (s.setConn d c).pipe = s.pipe := rfl

@[simp] theorem setConn_sent : (s.setConn d c).sent = s.sent := rfl

@[simp] theorem close_pipe : (s.close d).pipe = s.pipe := rfl

@[simp] theorem close_sent : (s.close d).sent = s.sent := rfl

@[simp] theorem close_reader : ((s.close d).conn e).reader = (s.conn e).reader := by
  rw [close, setConn_conn]
  split
  · next h => rw [h]
  · rfl

@[simp] theorem close_received : ((s.close d).conn e).received = (s.conn e).received := by
  rw [close, setConn_conn]
  split
  · next h => rw [h]
  · rfl

@[simp] theorem close_closing : ((s.close d).conn e).closing = true ↔ e = d ∨ (s.conn e).closing = true := by
  rw [close, setConn_conn]
  split
  · next h => simp [h]
  · next h => simp [h]

@[simp] theorem leave_pipe : (s.leave closes d how).pipe e = if e = d then how else s.pipe e := by
  rw [leave]
  split
  · exact Function.update_apply ..
  · exact Function.update_apply ..

@[simp] theorem leave_sent : (s.leave closes d how).sent = s.sent := by
  rw [leave]
  split
  · rfl
  · rfl

@[simp] theorem leave_reader : ((s.leave closes d how).conn e).reader = (s.conn e).reader := by
  rw [leave]
  split
  · exact close_reader
  · rfl

@[simp] theorem leave_received : ((s.leave closes d how).conn e).received = (s.conn e).received := by
  rw [leave]
  split
  · exact close_received
  · rfl

@[simp] theorem leave_closing : ((s.leave closes d how).conn e).closing = true ↔
    (e = d.other ∧ closes d = true) ∨ (s.conn e).closing = true := by
  rw [leave]
  split
  · next h => simp [h]
  · next h => simp [h]

@[simp] theorem pass_pipe : (s.pass d bs r).pipe = s.pipe := rfl

@[simp] theorem pass_conn :
    (s.pass d bs r).conn e = if e = d then { s.conn d with reader := r } else s.conn e := setConn_conn

@[simp] theorem pass_sent : (s.pass d bs r).sent e = if e = d then s.sent d ++ bs else s.sent e :=
  Function.update_apply ..

end Fields

theorem run_cases {closes : Side → Bool} {n : Nat} {s s' : Duplex α} {d : Side}
    (h : s.run closes n d = some s') :
    s.pipe d = .running ∧ ∃ bs r, (s.conn d).reader.read n = .data bs r ∧
      (bs = [] ∧ s' = s.leave closes d .ended ∨ bs ≠ [] ∧ s' = s.pass d bs r) := by
  unfold run at h
  split at h
  · next hrun =>
    refine ⟨hrun, ?_⟩
    split at h
    · next bs r hread =>
      refine ⟨bs, r, hread, ?_⟩
      by_cases hnil : bs = []
      · rw [if_pos hnil] at h
        exact .inl ⟨hnil, (Option.some.inj h).symm⟩
      · rw [if_neg hnil] at h
        exact .inr ⟨hnil, (Option.some.inj h).symm⟩
    · cases h
    · cases h
  · cases h

theorem nothing_left {r r' : StreamReader α} {n : Nat} (hn : 0 < n) (h : r.read n = .data [] r') :
    r.buffer = [] ∧ r.eof = true := by
  obtain ⟨-, htake, -, heof⟩ := StreamReader.read_cases h
  have hnil : r.buffer = [] := (List.take_eq_nil_iff.mp htake.symm).resolve_left (Nat.ne_of_gt hn)
  exact ⟨hnil, heof hnil⟩

/-- What a pipe has passed on and what it has not read yet is what has arrived, and a pipe that ends by
itself has passed on everything. -/
structure Conserves (s : Duplex α) (d : Side) : Prop where
  kept : s.sent d ++ (s.conn d).reader.buffer = (s.conn d).received
  ended : s.pipe d = .ended → (s.conn d).reader.buffer = [] ∧ (s.conn d).reader.eof = true

/-- A connection is closed by the pipe that writes to it, and that of the client also at the end. -/
structure Closes (closes : Side → Bool) (s : Duplex α) (d : Side) : Prop where
  closed : closes d = true → s.pipe d ≠ .running → (s.conn d.other).closing = true
  because : (s.conn d.other).closing = true → (closes d = true ∧ s.pipe d ≠ .running) ∨
    (d.other = .client ∧ ∀ e, s.pipe e ≠ .running)

section Runs

variable {closes : Side → Bool} {n : Nat} {s s' : Duplex α} {d : Side} {l : Label α}
  {client server : StreamReader α}

theorem conserves_start : (start client server).Conserves d := by
  constructor
  case kept =>
    cases d with
    | client | server => rfl
  case ended => exact fun h => by cases h

theorem Conserves.step (h : s.Conserves d) (hn : 0 < n) (hstep : s.step closes n l = some s') :
    s'.Conserves d := by
  obtain ⟨hkept, hended⟩ := h
  cases l with
  | feed e bs =>
    obtain ⟨⟨heof, -⟩, hs⟩ := Option.ite_none_right_eq_some.mp hstep
    cases hs
    by_cases he : d = e
    · subst he
      constructor
      case kept => simp [StreamReader.feed, ← hkept]
      case ended =>
        intro hpipe
        rw [(hended hpipe).2] at heof
        cases heof
    · exact ⟨by simpa [he] using hkept, by simpa [he] using hended⟩
  | feedEof e =>
    cases hstep
    by_cases he : d = e
    · subst he
      exact ⟨by simpa [StreamReader.feedEof] using hkept, fun hpipe => by
        simpa [StreamReader.feedEof] using (hended hpipe).1⟩
    · exact ⟨by simpa [he] using hkept, by simpa [he] using hended⟩
  | run e =>
    obtain ⟨hrun, bs, r, hread, ⟨rfl, rfl⟩ | ⟨hne, rfl⟩⟩ := run_cases hstep
    · refine ⟨by simpa using hkept, fun hpipe => ?_⟩
      by_cases he : d = e
      · subst he
        simpa using nothing_left hn hread
      · rw [leave_pipe, if_neg he] at hpipe
        simpa using hended hpipe
    · by_cases he : d = e
      · subst he
        constructor
        case kept => simpa [StreamReader.read_append hread] using hkept
        case ended =>
          intro hpipe
          rw [pass_pipe, hrun] at hpipe
          cases hpipe
      · exact ⟨by simpa [he] using hkept, by simpa [he] using hended⟩
  | fail e =>
    obtain ⟨-, hs⟩ := Option.ite_none_right_eq_some.mp hstep
    cases hs
    refine ⟨by simpa using hkept, fun hpipe => ?_⟩
    rw [leave_pipe] at hpipe
    split at hpipe
    · cases hpipe
    · simpa using hended hpipe
  | finish =>
    obtain ⟨-, hs⟩ := Option.ite_none_right_eq_some.mp hstep
    cases hs
    exact ⟨by simpa using hkept, by simpa using hended⟩

theorem closes_start : (start client server).Closes closes d := by
  constructor
  case closed => exact fun _ h => absurd rfl h
  case because =>
    cases d with
    | client | server => exact fun h => by cases h

theorem Closes.congr (h : s.Closes closes d) (hpipe : s'.pipe = s.pipe)
    (hclosing : ∀ e, (s'.conn e).closing = (s.conn e).closing) : s'.Closes closes d := by
  constructor
  case closed => simpa [hpipe, hclosing] using h.closed
  case because => simpa [hpipe, hclosing] using h.because

theorem Closes.leave {e : Side} {how : Pipe} (h : s.Closes closes d) (hhow : how ≠ .running) :
    (s.leave closes e how).Closes closes d := by
  have hleft : ∀ f, s.pipe f ≠ .running → (s.leave closes e how).pipe f ≠ .running := by
    intro f hf
    rw [leave_pipe]
    split
    · exact hhow
    · exact hf
  constructor
  case closed =>
    intro hc hpipe
    rw [leave_closing]
    by_cases he : d = e
    · exact .inl ⟨by rw [he], he ▸ hc⟩
    · rw [leave_pipe, if_neg he] at hpipe
      exact .inr (h.closed hc hpipe)
  case because =>
    intro hclosing
    rcases leave_closing.mp hclosing with ⟨hside, hc⟩ | hclosing
    · have he : d = e := by
        rw [← Side.other_other d, hside, Side.other_other]
      refine .inl ⟨he ▸ hc, ?_⟩
      rw [leave_pipe, if_pos he]
      exact hhow
    · rcases h.because hclosing with ⟨hc, hpipe⟩ | ⟨hside, hpipes⟩
      · exact .inl ⟨hc, hleft d hpipe⟩
      · exact .inr ⟨hside, fun f => hleft f (hpipes f)⟩

theorem Closes.step (h : s.Closes closes d) (hstep : s.step closes n l = some s') :
    s'.Closes closes d := by
  have hkept : ∀ {e : Side} {c : Conn α}, c.closing = (s.conn e).closing →
      ∀ f, (((s.setConn e c).conn f).closing = (s.conn f).closing) := by
    intro e c hc f
    rw [setConn_conn]
    split
    · next hf => rw [hc, hf]
    · rfl
  cases l with
  | feed e bs =>
    obtain ⟨-, hs⟩ := Option.ite_none_right_eq_some.mp hstep
    cases hs
    exact h.congr rfl (hkept rfl)
  | feedEof e =>
    cases hstep
    exact h.congr rfl (hkept rfl)
  | run e =>
    obtain ⟨-, bs, r, -, ⟨-, rfl⟩ | ⟨-, rfl⟩⟩ := run_cases hstep
    · exact h.leave (by decide)
    · exact h.congr rfl (hkept rfl)
  | fail e =>
    obtain ⟨-, hs⟩ := Option.ite_none_right_eq_some.mp hstep
    cases hs
    exact h.leave (by decide)
  | finish =>
    obtain ⟨⟨hclient, hserver⟩, hs⟩ := Option.ite_none_right_eq_some.mp hstep
    cases hs
    constructor
    case closed => exact fun hc hpipe => close_closing.mpr (.inr (h.closed hc hpipe))
    case because =>
      intro hclosing
      rcases close_closing.mp hclosing with hside | hclosing
      · refine .inr ⟨hside, fun e => ?_⟩
        cases e with
        | client => exact hclient
        | server => exact hserver
      · exact h.because hclosing

theorem received_step (hstep : s.step closes n l = some s') (d : Side) :
    (s'.conn d).received = (s.conn d).received ++ l.fed d ∧
      (l.fed d ≠ [] → (s.conn d).reader.eof = false) ∧
      ((s.conn d).reader.eof = true → (s'.conn d).reader.eof = true) := by
  cases l with
  | feed e bs =>
    obtain ⟨⟨heof, -⟩, hs⟩ := Option.ite_none_right_eq_some.mp hstep
    cases hs
    by_cases he : d = e
    · subst he
      simp [Label.fed, StreamReader.feed, heof]
    · simp [Label.fed, he, Ne.symm he]
  | feedEof e =>
    cases hstep
    by_cases he : d = e
    · subst he
      simp [Label.fed, StreamReader.feedEof]
    · simp [Label.fed, he]
  | run e =>
    obtain ⟨-, bs, r, hread, ⟨-, rfl⟩ | ⟨-, rfl⟩⟩ := run_cases hstep
    · simp [Label.fed]
    · have heof := (StreamReader.read_cases hread).1
      by_cases he : d = e
      · subst he
        simp [Label.fed, heof]
      · simp [Label.fed, he]
  | fail e =>
    obtain ⟨-, hs⟩ := Option.ite_none_right_eq_some.mp hstep
    cases hs
    simp [Label.fed]
  | finish =>
    obtain ⟨-, hs⟩ := Option.ite_none_right_eq_some.mp hstep
    cases hs
    simp [Label.fed]

end Runs

/-- Nothing arrives any more: the pipes go on, and connections that are closing are lost. -/
def Winding (s : Duplex α) : Label α → Prop
  | .run _ => True
  | .feedEof d => (s.conn d).closing = true
  | .feed .. | .fail _ | .finish => False

def left (s : Duplex α) (d : Side) : Nat :=
  if s.pipe d = .running then (s.conn d).reader.buffer.length + (if (s.conn d).reader.eof then 0 else 1) + 1
  else 0

section Finish

variable {closes : Side → Bool} {n : Nat} {s s' : Duplex α} {d : Side} {l : Label α}

theorem read_of_eof {r : StreamReader α} (heof : r.eof = true) :
    r.read n = .data (r.buffer.take n) { r with buffer := r.buffer.drop n } := by
  rw [StreamReader.read, if_neg]
  rintro ⟨-, h⟩
  rw [heof] at h
  cases h

structure Quiet (s s' : Duplex α) : Prop where
  received : ∀ d, (s'.conn d).received = (s.conn d).received
  failed : ∀ d, s'.pipe d = .failed → s.pipe d = .failed
  eof : ∀ d, (s.conn d).reader.eof = true → (s'.conn d).reader.eof = true
  stopped : ∀ d, s.pipe d ≠ .running → s'.pipe d ≠ .running

theorem Quiet.refl (s : Duplex α) : Quiet s s := ⟨fun _ => rfl, fun _ h => h, fun _ h => h, fun _ h => h⟩

theorem Quiet.trans {t u : Duplex α} (h : Quiet s t) (h' : Quiet t u) : Quiet s u where
  received d := (h'.received d).trans (h.received d)
  failed d hd := h.failed d (h'.failed d hd)
  eof d hd := h'.eof d (h.eof d hd)
  stopped d hd := h'.stopped d (h.stopped d hd)

theorem exists_run (closes : Side → Bool) (hn : 0 < n) (hpipe : s.pipe d = .running)
    (heof : (s.conn d).reader.eof = true) :
    ∃ s', s.run closes n d = some s' ∧ Quiet s s' ∧ s'.left d < s.left d ∧
      s'.left d.other = s.left d.other := by
  rw [run, if_pos hpipe, read_of_eof heof]
  refine ⟨_, rfl, ?_⟩
  have hleft : 0 < s.left d := by
    rw [left, if_pos hpipe]
    exact Nat.succ_pos _
  by_cases hnil : (s.conn d).reader.buffer.take n = []
  · rw [if_pos hnil]
    refine ⟨⟨by simp, fun e he => ?_, by simp, fun e he => ?_⟩, ?_, by simp [left]⟩
    · rw [leave_pipe] at he
      split at he
      · cases he
      · exact he
    · rw [leave_pipe]
      split
      · decide
      · exact he
    · simpa [left] using hleft
  · rw [if_neg hnil]
    refine ⟨⟨fun e => ?_, fun _ he => he, fun e he => ?_, fun _ he => he⟩, ?_, by simp [left]⟩
    · rw [pass_conn]
      split
      · next he => rw [he]
      · rfl
    · rw [pass_conn]
      split
      · exact heof
      · exact he
    · have hne : (s.conn d).reader.buffer ≠ [] := by
        intro h
        rw [h, List.take_nil] at hnil
        exact hnil rfl
      have hpos := List.length_pos_iff.mpr hne
      simp only [left, pass_pipe, pass_conn, hpipe, heof, if_true, List.length_drop]
      omega

theorem exists_lost (closes : Side → Bool) (n : Nat) (hpipe : s.pipe d = .running)
    (heof : (s.conn d).reader.eof = false) :
    ∃ s', s.step closes n (.feedEof d) = some s' ∧ Quiet s s' ∧ s'.left d < s.left d ∧
      s'.left d.other = s.left d.other := by
  refine ⟨_, rfl, ⟨fun e => ?_, fun _ he => he, fun e he => ?_, fun _ he => he⟩, ?_, by simp [left]⟩
  · rw [setConn_conn]
    split
    · next he => rw [he]
    · rfl
  · rw [setConn_conn]
    split
    · rfl
    · exact he
  · simp [left, hpipe, heof, StreamReader.feedEof]

theorem exists_winding (hn : 0 < n) (hcloses : ∀ d, closes d = true) (h : ∀ d, s.Closes closes d)
    (hover : ∃ d, s.pipe d ≠ .running ∨ (s.conn d).reader.eof = true) (hpipe : s.pipe d = .running) :
    ∃ l s', Winding s l ∧ s.step closes n l = some s' ∧ Quiet s s' ∧
      s'.left .client + s'.left .server < s.left .client + s.left .server := by
  have hsum : ∀ {e : Side} {s' : Duplex α}, s'.left e < s.left e → s'.left e.other = s.left e.other →
      s'.left .client + s'.left .server < s.left .client + s.left .server := by
    intro e s' hlt heq
    cases e with
    | client =>
      rw [Side.other] at heq
      omega
    | server =>
      rw [Side.other] at heq
      omega
  by_cases heof : ∃ e, s.pipe e = .running ∧ (s.conn e).reader.eof = true
  · obtain ⟨e, hrun, heof⟩ := heof
    obtain ⟨s', hs', hquiet, hlt, heq⟩ := exists_run closes hn hrun heof
    exact ⟨.run e, s', trivial, hs', hquiet, hsum hlt heq⟩
  · have hnot : ∀ e, s.pipe e = .running → (s.conn e).reader.eof = false := by
      intro e he
      rw [← Bool.not_eq_true]
      exact fun h => heof ⟨e, he, h⟩
    obtain ⟨e, he⟩ := hover
    have hend : s.pipe e ≠ .running := by
      rcases he with he | he
      · exact he
      · exact fun hrun => heof ⟨e, hrun, he⟩
    have hside : d = e.other := by
      rcases Side.eq_or_eq_other e d with rfl | hd
      · exact absurd hpipe hend
      · exact hd
    obtain ⟨s', hs', hquiet, hlt, heq⟩ := exists_lost closes n hpipe (hnot d hpipe)
    exact ⟨.feedEof d, s', hside ▸ (h e).closed (hcloses e) hend, hs', hquiet, hsum hlt heq⟩

/-- Once a side is over, a relay whose pipes close what they write to can come to its end without new data,
and then all that has arrived is passed on. -/
theorem exists_finish (hn : 0 < n) (hcloses : ∀ d, closes d = true)
    (hinv : ∀ d, s.Conserves d ∧ s.Closes closes d)
    (hover : ∃ d, s.pipe d ≠ .running ∨ (s.conn d).reader.eof = true) :
    ∃ s', (Machine.mk s (step closes n)).Reach Winding s' ∧ Quiet s s' ∧ ∀ d, s'.pipe d ≠ .running ∧
      (s.pipe d ≠ .failed → s'.sent d = (s.conn d).received) := by
  induction hm : s.left .client + s.left .server using Nat.strongRecOn generalizing s with
  | _ m ih =>
    by_cases hall : ∀ d, s.pipe d ≠ .running
    · refine ⟨s, .init, .refl s, fun d => ⟨hall d, fun hfailed => ?_⟩⟩
      obtain ⟨hkept, hended⟩ := (hinv d).1
      have hnil : (s.conn d).reader.buffer = [] := by
        cases hd : s.pipe d with
        | running => exact absurd hd (hall d)
        | ended => exact (hended hd).1
        | failed => exact absurd hd hfailed
      rw [← hkept, hnil, List.append_nil]
    · obtain ⟨d, hd⟩ := not_forall.mp hall
      obtain ⟨l, t, hl, ht, hquiet, hlt⟩ :=
        exists_winding hn hcloses (fun d => (hinv d).2) hover (not_not.mp hd)
      have hinv' : ∀ d, t.Conserves d ∧ t.Closes closes d :=
        fun d => ⟨(hinv d).1.step hn ht, (hinv d).2.step ht⟩
      obtain ⟨e, he⟩ := hover
      obtain ⟨s', hreach, hquiet', hfinal⟩ :=
        ih _ (hm ▸ hlt) hinv' ⟨e, he.imp (hquiet.stopped e) (hquiet.eof e)⟩ rfl
      refine ⟨s', hreach.head hl ht, hquiet.trans hquiet', fun d => ⟨(hfinal d).1, fun hfailed => ?_⟩⟩
      rw [(hfinal d).2 fun h => hfailed (hquiet.failed d h), hquiet.received]

end Finish

end Duplex

end ProxySplit.Lib
