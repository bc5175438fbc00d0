import ProxySplit.Registry
import ProxySplit.PyText
import Mathlib

namespace ProxySplit

open Lib

/-- The settings of `TorInstanceManager` that the processes get. -/
structure TorSettings where
  numInstances : Nat
  baseSocks : Int

namespace TorSettings

def socksPort (c : TorSettings) (i : Nat) : Int := c.baseSocks + i

def proxyUrl (c : TorSettings) (i : Nat) : Url := "socks5://127.0.0.1:" ++ toString (c.socksPort i)

theorem proxyUrl_injective (c : TorSettings) : Function.Injective c.proxyUrl := by
  intro i j h
  have hport : c.socksPort i = c.socksPort j := Int.repr_injective (String.append_right_inj _ |>.mp h)
  exact Int.ofNat_inj.mp (Int.add_left_cancel hport)

end TorSettings

/-- `_bootstrap_ev` and `_bootstrap_err`, which the thread that reads the output of a process sets. -/
structure Launch where
  bootstrapEv : Bool
  bootstrapErr : Option (List Char)

namespace Launch

def bootstrapped (line : List Char) : Bool := "Bootstrapped 100%".toList <:+: line

def complains (line : List Char) : Bool :=
  let lower := line.map Char.toLower
  "[err]".toList <:+: lower ∨ "problem bootstrapping".toList <:+: lower

/-- One turn of the loop of `_read_stdout`. -/
def readLine (l : Launch) (line : List Char) : Launch :=
  let line := line.rdropWhile PyText.isSpace
  if bootstrapped line then { l with bootstrapEv := true }
  else if complains line then ⟨true, some line⟩
  else l

end Launch

inductive Heard
  | line (text : List Char)
  | failure (why : List Char)

namespace Heard

def announces : Heard → Bool
  | line text => Launch.bootstrapped (text.rdropWhile PyText.isSpace)
  | failure _ => false

def objects : Heard → Bool
  | line text => !Launch.bootstrapped (text.rdropWhile PyText.isSpace) &&
    Launch.complains (text.rdropWhile PyText.isSpace)
  | failure _ => true

end Heard

/-- One turn of the loop of `_read_stdout`, or its `except`. -/
def Launch.hear (l : Launch) : Heard → Launch
  | .line text => l.readLine text
  | .failure why => ⟨true, some why⟩

inductive FleetOutcome
  | starting
  | raised (why : List Char)
  | returned
  | stopped
  deriving DecidableEq

/-- The manager with its processes: which ones it has put into `instances`, the one that it starts, those that
run, those that have ended by themselves, and what was read of each until its start was decided. -/
structure TorFleet where
  instances : List Nat
  launch : Option Launch
  running : Finset Nat
  exited : Finset Nat
  heard : Nat → List Heard
  outcome : FleetOutcome

namespace TorFleet

inductive Label
  | popen
  | cannotPopen (why : List Char)
  | hear (what : Heard)
  | timeout
  | wake
  | loopEnds
  | exit (i : Nat)
  | stopAll

def init : TorFleet := ⟨[], none, ∅, ∅, fun _ => [], .starting⟩

/-- The instance that `start_all` is at. -/
def index (s : TorFleet) : Nat := s.instances.length

/-- `stop()` of the instance that does not start, and what `start` then raises. -/
def giveUp (s : TorFleet) (why : List Char) : TorFleet :=
  { s with launch := none, running := s.running.erase s.index, outcome := .raised why }

def enlist (s : TorFleet) : TorFleet := { s with launch := none, instances := s.instances ++ [s.index] }

def failed (s : TorFleet) (e : List Char) : List Char :=
  "Tor #".toList ++ (toString s.index).toList ++ " failed: ".toList ++ e

def late (s : TorFleet) (launchTimeout : List Char) : List Char :=
  "Tor #".toList ++ (toString s.index).toList ++ " did not bootstrap in ".toList ++ launchTimeout ++ ['s']

def step (c : TorSettings) (launchTimeout : List Char) (s : TorFleet) : Label → Option TorFleet
  | .popen =>
    if s.outcome = .starting ∧ s.launch.isNone ∧ s.index < c.numInstances then
      some { s with launch := some ⟨false, none⟩, running := insert s.index s.running }
    else none
  | .cannotPopen why =>
    if s.outcome = .starting ∧ s.launch.isNone ∧ s.index < c.numInstances then
      some { s with outcome := .raised why }
    else none
  | .hear what => s.launch.map fun l =>
    { s with
      launch := some (l.hear what)
      heard := Function.update s.heard s.index (s.heard s.index ++ [what]) }
  | .timeout => s.launch.bind fun l => if l.bootstrapEv then none else some (s.giveUp (s.late launchTimeout))
  | .wake => s.launch.bind fun l =>
    if l.bootstrapEv then
      -- An error whose text is empty does not count.
      match l.bootstrapErr with
      | some (e :: es) => some (s.giveUp (s.failed (e :: es)))
      | _ => some s.enlist
    else none
  | .loopEnds =>
    if s.outcome = .starting ∧ s.launch.isNone ∧ s.index = c.numInstances then
      some { s with outcome := .returned }
    else none
  | .exit i =>
    if i ∈ s.running then some { s with running := s.running.erase i, exited := insert i s.exited } else none
  | .stopAll =>
    if s.outcome = .returned then
      some { s with instances := [], running := s.running \ s.instances.toFinset, outcome := .stopped }
    else none

def machine (c : TorSettings) (launchTimeout : List Char) : Machine TorFleet Label :=
  ⟨init, step c launchTimeout⟩

def proxyUrls (s : TorFleet) (c : TorSettings) : List Url :=
  (s.instances.filter (· ∈ s.running)).map c.proxyUrl

/-- What was read has announced the end of the bootstrap and nothing in it objects, or the reading has failed
without a word. -/
def Ready (heard : List Heard) : Prop :=
  (∃ what ∈ heard, what.announces = true) ∧ (∀ what ∈ heard, what.objects = false) ∨ .failure [] ∈ heard

structure Tells (l : Launch) (heard : List Heard) : Prop where
  quiet : l.bootstrapErr = none → ∀ what ∈ heard, what.objects = false
  announced : l.bootstrapErr = none → l.bootstrapEv = true → ∃ what ∈ heard, what.announces = true
  wordless : l.bootstrapErr = some [] → .failure [] ∈ heard

theorem Tells.ready {l : Launch} {heard : List Heard} (h : Tells l heard) (hev : l.bootstrapEv = true)
    (herr : ∀ e es, l.bootstrapErr ≠ some (e :: es)) : Ready heard := by
  rcases hsome : l.bootstrapErr with _ | (_ | ⟨e, es⟩)
  · exact .inl ⟨h.announced hsome hev, h.quiet hsome⟩
  · exact .inr (h.wordless hsome)
  · exact absurd hsome (herr e es)

theorem Tells.keep {l l' : Launch} {heard : List Heard} (h : Tells l heard) {what : Heard}
    (herr : l'.bootstrapErr = l.bootstrapErr) (hquiet : what.objects = false)
    (hev : l'.bootstrapEv = true → what.announces = true ∨ l.bootstrapEv = true) :
    Tells l' (heard ++ [what]) := by
  constructor
  case quiet =>
    intro hnone other hother
    rcases List.mem_append.mp hother with hold | hnew
    · exact h.quiet (herr ▸ hnone) other hold
    · rw [List.mem_singleton.mp hnew]
      exact hquiet
  case announced =>
    intro hnone hset
    rcases hev hset with hsays | hbefore
    · exact ⟨what, by simp, hsays⟩
    · obtain ⟨other, hother, hsays⟩ := h.announced (herr ▸ hnone) hbefore
      exact ⟨other, List.mem_append_left _ hother, hsays⟩
  case wordless => exact fun hempty => List.mem_append_left _ (h.wordless (herr ▸ hempty))

theorem Tells.hear {l : Launch} {heard : List Heard} (h : Tells l heard) (what : Heard) :
    Tells (l.hear what) (heard ++ [what]) := by
  cases what with
  | failure why =>
    refine ⟨fun herr => (by cases herr), fun herr => (by cases herr), fun herr => ?_⟩
    cases herr
    simp
  | line text =>
    unfold Launch.hear Launch.readLine
    dsimp only
    split
    · next hboot => exact h.keep rfl (by simp [Heard.objects, hboot]) fun _ => .inl hboot
    · next hboot =>
      split
      · next hcomplains =>
        refine ⟨fun herr => (by cases herr), fun herr => (by cases herr), fun herr => ?_⟩
        -- A line that complains is not empty.
        rw [Option.some.injEq] at herr
        rw [herr] at hcomplains
        exact absurd hcomplains (by decide)
      · next hcomplains =>
        refine h.keep rfl ?_ .inr
        rw [Heard.objects, Bool.eq_false_iff.mpr hcomplains, Bool.and_false]

/-- How far `start_all` has come, and what runs. -/
structure Inv (c : TorSettings) (s : TorFleet) : Prop where
  upTo : s.instances = List.range s.index
  index_le : s.index ≤ c.numInstances
  ready : ∀ i < s.index, Ready (s.heard i)
  launched : ∀ i, i < s.index ∨ s.launch.isSome ∧ i = s.index → i ∈ s.running ∨ i ∈ s.exited
  only : ∀ i ∈ s.running, i < s.index ∨ s.launch.isSome ∧ i = s.index
  gone : ∀ i ∈ s.exited, i ∉ s.running
  past : s.outcome = .starting → ∀ i ∈ s.exited, i < s.index ∨ s.launch.isSome ∧ i = s.index
  tells : ∀ l ∈ s.launch, Tells l (s.heard s.index)
  unheard : s.outcome = .starting → ∀ i, s.index ≤ i → (s.launch.isSome → i ≠ s.index) → s.heard i = []
  launching : s.launch.isSome → s.outcome = .starting ∧ s.index < c.numInstances
  raised : ∀ why, s.outcome = .raised why → s.index < c.numInstances
  returned : s.outcome = .returned → s.index = c.numInstances
  stopped : s.outcome = .stopped → s.index = 0

section Steps

variable {c : TorSettings} {launchTimeout : List Char} {s s' : TorFleet} {l : Label}

theorem inv_init : Inv c init := by
  constructor
  case upTo | unheard => intros; rfl
  case index_le => exact Nat.zero_le _
  case ready => exact fun i hi => absurd hi (Nat.not_lt_zero i)
  case launched =>
    rintro i (hi | ⟨hsome, -⟩)
    · exact absurd hi (Nat.not_lt_zero i)
    · cases hsome
  case only | gone => exact fun i hi => absurd hi (Finset.notMem_empty i)
  case past => exact fun _ i hi => absurd hi (Finset.notMem_empty i)
  case tells | launching | raised | returned | stopped => intros; contradiction

theorem index_enlist (s : TorFleet) : s.enlist.index = s.index + 1 := List.length_append

theorem Inv.giveUp {l : Launch} (h : Inv c s) (hl : s.launch = some l) (why : List Char) :
    Inv c (s.giveUp why) := by
  obtain ⟨hstarting, hlt⟩ := h.launching (by rw [hl]; rfl)
  refine { h with
    launched := ?launched, only := ?only, gone := ?gone, raised := fun _ _ => hlt, past := ?_, tells := ?_,
    unheard := ?_, launching := ?_, returned := ?_, stopped := ?_ }
  case launched =>
    rintro i (hi | ⟨hsome, -⟩)
    · refine (h.launched i (.inl hi)).imp_left fun hmem => Finset.mem_erase.mpr ⟨?_, hmem⟩
      exact Nat.ne_of_lt hi
    · cases hsome
  case only =>
    intro i hi
    obtain ⟨hne, hmem⟩ := Finset.mem_erase.mp hi
    exact .inl ((h.only i hmem).resolve_right fun hcur => hne hcur.2)
  case gone => exact fun i hi hmem => h.gone i hi (Finset.mem_of_mem_erase hmem)
  all_goals
    intros
    contradiction

theorem Inv.enlist {l : Launch} (h : Inv c s) (hl : s.launch = some l) (hev : l.bootstrapEv = true)
    (herr : ∀ e es, l.bootstrapErr ≠ some (e :: es)) : Inv c s.enlist := by
  have hsome : s.launch.isSome := by rw [hl]; rfl
  obtain ⟨hstarting, hlt⟩ := h.launching hsome
  have htells := h.tells l hl
  have hcases : ∀ {i}, i < s.enlist.index → i < s.index ∨ i = s.index := by
    intro i hi
    rw [index_enlist] at hi
    exact Nat.lt_succ_iff_lt_or_eq.mp hi
  constructor
  case upTo =>
    rw [index_enlist, List.range_succ, ← h.upTo]
    rfl
  case index_le =>
    rw [index_enlist]
    exact hlt
  case ready =>
    intro i hi
    rcases hcases hi with hi | rfl
    · exact h.ready i hi
    · exact htells.ready hev herr
  case launched =>
    rintro i (hi | ⟨hnone, -⟩)
    · exact h.launched i ((hcases hi).imp_right fun heq => ⟨hsome, heq⟩)
    · cases hnone
  case only =>
    intro i hi
    rw [index_enlist]
    rcases h.only i hi with hlt | ⟨-, rfl⟩
    · exact .inl (Nat.lt_succ_of_lt hlt)
    · exact .inl (Nat.lt_succ_self _)
  case gone => exact h.gone
  case past =>
    intro _ i hi
    rw [index_enlist]
    rcases h.past hstarting i hi with hlt | ⟨-, rfl⟩
    · exact .inl (Nat.lt_succ_of_lt hlt)
    · exact .inl (Nat.lt_succ_self _)
  case unheard =>
    intro _ i hi _
    rw [index_enlist] at hi
    exact h.unheard hstarting i (Nat.le_of_succ_le hi) fun _ => Nat.ne_of_gt hi
  case tells | launching =>
    intros
    contradiction
  case raised =>
    intro why hraised
    cases hstarting.symm.trans hraised
  case returned =>
    intro hreturned
    cases hstarting.symm.trans hreturned
  case stopped =>
    intro hstopped
    cases hstarting.symm.trans hstopped

theorem Inv.popen (h : Inv c s) (hstarting : s.outcome = .starting) (hnone : s.launch = none)
    (hlt : s.index < c.numInstances) :
    Inv c { s with launch := some ⟨false, none⟩, running := insert s.index s.running } := by
  have hnot : ¬ s.launch.isSome := by
    rw [hnone]
    exact Bool.false_ne_true
  refine { h with
    launched := ?launched, only := ?only, gone := ?gone, past := ?past, tells := ?tells, unheard := ?unheard,
    launching := fun _ => ⟨hstarting, hlt⟩ }
  case launched =>
    rintro i (hi | ⟨-, rfl⟩)
    · exact (h.launched i (.inl hi)).imp_left Finset.mem_insert_of_mem
    · exact .inl (Finset.mem_insert_self ..)
  case only =>
    intro i hi
    rcases Finset.mem_insert.mp hi with rfl | hi
    · exact .inr ⟨rfl, rfl⟩
    · exact .inl ((h.only i hi).resolve_right fun hcur => hnot hcur.1)
  case gone =>
    intro i hi hmem
    rcases Finset.mem_insert.mp hmem with rfl | hmem
    · exact lt_irrefl _ ((h.past hstarting _ hi).resolve_right fun hcur => hnot hcur.1)
    · exact h.gone i hi hmem
  case past => exact fun _ i hi => .inl ((h.past hstarting i hi).resolve_right fun hcur => hnot hcur.1)
  case tells =>
    intro l hl
    have hheard : s.heard s.index = [] := h.unheard hstarting _ le_rfl fun hsome => absurd hsome hnot
    cases hl
    refine ⟨fun _ what hwhat => ?_, fun _ hev => (by cases hev), fun hempty => (by cases hempty)⟩
    have hmem : what ∈ s.heard s.index := hwhat
    rw [hheard] at hmem
    cases hmem
  case unheard => exact fun _ i hi _ => h.unheard hstarting i hi fun hsome => absurd hsome hnot

theorem Inv.hear {launch : Launch} (h : Inv c s) (hl : s.launch = some launch) (what : Heard) :
    Inv c { s with
      launch := some (launch.hear what)
      heard := Function.update s.heard s.index (s.heard s.index ++ [what]) } := by
  have hsome : s.launch.isSome := by
    rw [hl]
    rfl
  refine { h with
    ready := ?ready, launched := ?launched, only := ?only, past := ?past, tells := ?tells,
    unheard := ?unheard, launching := fun _ => h.launching hsome }
  case ready =>
    intro i hi
    have hne : i ≠ s.index := Nat.ne_of_lt hi
    dsimp only
    rw [Function.update_of_ne hne]
    exact h.ready i hi
  case launched => exact fun i hi => h.launched i (hi.imp_right fun hcur => ⟨hsome, hcur.2⟩)
  case only => exact fun i hi => (h.only i hi).imp_right fun hcur => ⟨rfl, hcur.2⟩
  case past => exact fun hstarting i hi => (h.past hstarting i hi).imp_right fun hcur => ⟨rfl, hcur.2⟩
  case tells =>
    intro l hl'
    cases hl'
    dsimp only [TorFleet.index]
    rw [Function.update_self]
    exact (h.tells launch hl).hear what
  case unheard =>
    intro hstarting i hi hne
    have hother : i ≠ s.index := hne rfl
    dsimp only
    rw [Function.update_of_ne hother]
    exact h.unheard hstarting i hi fun _ => hother

theorem Inv.decide (h : Inv c s) (hnone : s.launch = none) {outcome : FleetOutcome}
    (houtcome : (∃ why, outcome = .raised why) ∧ s.index < c.numInstances ∨
      outcome = .returned ∧ s.index = c.numInstances) : Inv c { s with outcome := outcome } := by
  refine { h with
    past := ?_, unheard := ?_, launching := ?launching, raised := ?raised, returned := ?returned,
    stopped := ?_ }
  case launching =>
    intro hsome
    dsimp only at hsome
    rw [hnone] at hsome
    cases hsome
  case raised =>
    intro why hraised
    rcases houtcome with ⟨-, hlt⟩ | ⟨rfl, -⟩
    · exact hlt
    · cases hraised
  case returned =>
    intro hreturned
    rcases houtcome with ⟨⟨why, rfl⟩, -⟩ | ⟨-, heq⟩
    · cases hreturned
    · exact heq
  all_goals
    intro hout
    rcases houtcome with ⟨⟨why, rfl⟩, -⟩ | ⟨rfl, -⟩
    · cases hout
    · cases hout

theorem Inv.exit (h : Inv c s) {i : Nat} (hi : i ∈ s.running) :
    Inv c { s with running := s.running.erase i, exited := insert i s.exited } := by
  refine { h with launched := ?launched, only := ?only, gone := ?gone, past := ?past }
  case launched =>
    intro j hj
    by_cases hij : j = i
    · exact .inr (hij ▸ Finset.mem_insert_self ..)
    · exact (h.launched j hj).imp (fun hmem => Finset.mem_erase.mpr ⟨hij, hmem⟩) Finset.mem_insert_of_mem
  case only => exact fun j hj => h.only j (Finset.mem_of_mem_erase hj)
  case gone =>
    intro j hj hmem
    obtain ⟨hne, hmem⟩ := Finset.mem_erase.mp hmem
    exact h.gone j ((Finset.mem_insert.mp hj).resolve_left hne) hmem
  case past =>
    intro hstarting j hj
    rcases Finset.mem_insert.mp hj with rfl | hj
    · exact h.only j hi
    · exact h.past hstarting j hj

theorem Inv.stopAll (h : Inv c s) (hreturned : s.outcome = .returned) :
    Inv c { s with instances := [], running := s.running \ s.instances.toFinset, outcome := .stopped } := by
  have hnot : ¬ s.launch.isSome := by
    intro hsome
    cases (h.launching hsome).1.symm.trans hreturned
  constructor
  case upTo => rfl
  case index_le => exact Nat.zero_le _
  case ready => exact fun i hi => absurd hi (Nat.not_lt_zero i)
  case launched =>
    rintro i (hi | ⟨hsome, -⟩)
    · exact absurd hi (Nat.not_lt_zero i)
    · exact absurd hsome hnot
  case only =>
    intro i hi
    obtain ⟨hrun, hinst⟩ := Finset.mem_sdiff.mp hi
    have hlt := (h.only i hrun).resolve_right fun hcur => hnot hcur.1
    rw [List.mem_toFinset, h.upTo, List.mem_range] at hinst
    exact absurd hlt hinst
  case gone => exact fun i hi hmem => h.gone i hi (Finset.mem_sdiff.mp hmem).1
  case tells => exact fun l hl => absurd (by rw [hl]; rfl) hnot
  case launching => exact fun hsome => absurd hsome hnot
  case stopped => exact fun _ => rfl
  all_goals
    intros
    contradiction

theorem Inv.step (h : Inv c s) (hstep : s.step c launchTimeout l = some s') : Inv c s' := by
  cases l with
  | popen =>
    obtain ⟨⟨hstarting, hnone, hlt⟩, hs⟩ := Option.ite_none_right_eq_some.mp hstep
    cases hs
    exact h.popen hstarting (Option.isNone_iff_eq_none.mp hnone) hlt
  | cannotPopen why =>
    obtain ⟨⟨-, hnone, hlt⟩, hs⟩ := Option.ite_none_right_eq_some.mp hstep
    cases hs
    exact h.decide (Option.isNone_iff_eq_none.mp hnone) (.inl ⟨⟨why, rfl⟩, hlt⟩)
  | hear what =>
    obtain ⟨launch, hl, rfl⟩ := Option.map_eq_some_iff.mp hstep
    exact h.hear hl what
  | timeout =>
    obtain ⟨launch, hl, hs⟩ := Option.bind_eq_some_iff.mp hstep
    obtain ⟨-, hs⟩ := Option.ite_none_left_eq_some.mp hs
    cases hs
    exact h.giveUp hl _
  | wake =>
    obtain ⟨launch, hl, hs⟩ := Option.bind_eq_some_iff.mp hstep
    obtain ⟨hev, hs⟩ := Option.ite_none_right_eq_some.mp hs
    split at hs
    · cases hs
      exact h.giveUp hl _
    · next herr =>
      cases hs
      exact h.enlist hl hev herr
  | loopEnds =>
    obtain ⟨⟨-, hnone, heq⟩, hs⟩ := Option.ite_none_right_eq_some.mp hstep
    cases hs
    exact h.decide (Option.isNone_iff_eq_none.mp hnone) (.inr ⟨rfl, heq⟩)
  | exit i =>
    obtain ⟨hi, hs⟩ := Option.ite_none_right_eq_some.mp hstep
    cases hs
    exact h.exit hi
  | stopAll =>
    obtain ⟨hreturned, hs⟩ := Option.ite_none_right_eq_some.mp hstep
    cases hs
    exact h.stopAll hreturned

end Steps

/-- What is left behind when `start_all` has come to its end, and when everything has. -/
def Accounted (c : TorSettings) (s : TorFleet) : Prop :=
  match s.outcome with
  | .starting => s.index ≤ c.numInstances ∧ ∀ i ∈ s.running, i ≤ s.index
  | .raised _ => s.index < c.numInstances ∧ ∀ i, i ∈ s.running ↔ i < s.index ∧ i ∉ s.exited
  | .returned => s.index = c.numInstances ∧ (∀ i, i ∈ s.running ↔ i < c.numInstances ∧ i ∉ s.exited) ∧
      s.proxyUrls c = ((List.range c.numInstances).filter (· ∉ s.exited)).map c.proxyUrl ∧
      (s.proxyUrls c).Nodup
  | .stopped => s.running = ∅

/-- `start_all` starts the instances in order, each after a bootstrap that nothing objects to.  When one does
not start, exactly those before it are left running, and when it returns, `stop_all` leaves none. -/
theorem accounted_of_reachable {c : TorSettings} {launchTimeout : List Char} {s : TorFleet}
    (h : (machine c launchTimeout).Reachable s) :
    s.instances = List.range s.index ∧ (∀ i < s.index, Ready (s.heard i)) ∧ Accounted c s := by
  have hinv : Inv c s := h.invariant inv_init fun _ _ _ hI _ hstep => hI.step hstep
  have hnone : s.outcome ≠ .starting → ∀ i, ¬ (s.launch.isSome ∧ i = s.index) :=
    fun hout i hcur => hout (hinv.launching hcur.1).1
  have hrunning : s.outcome ≠ .starting → ∀ i, i ∈ s.running ↔ i < s.index ∧ i ∉ s.exited := by
    intro hout i
    constructor
    · exact fun hi => ⟨(hinv.only i hi).resolve_right (hnone hout i), fun hgone => hinv.gone i hgone hi⟩
    · exact fun hi => (hinv.launched i (.inl hi.1)).resolve_right hi.2
  refine ⟨hinv.upTo, hinv.ready, ?_⟩
  rw [Accounted]
  cases hout : s.outcome with
  | starting =>
    refine ⟨hinv.index_le, fun i hi => ?_⟩
    rcases hinv.only i hi with hlt | ⟨-, rfl⟩
    · exact hlt.le
    · exact le_rfl
  | raised why => exact ⟨hinv.raised why hout, hrunning (by rw [hout]; exact FleetOutcome.noConfusion)⟩
  | returned =>
    have heq := hinv.returned hout
    have hall := heq ▸ hrunning (by rw [hout]; exact FleetOutcome.noConfusion)
    have hurls : s.proxyUrls c = ((List.range c.numInstances).filter (· ∉ s.exited)).map c.proxyUrl := by
      rw [proxyUrls, hinv.upTo, heq]
      congr 1
      refine List.filter_congr fun i hi => ?_
      rw [decide_eq_decide, hall i]
      exact and_iff_right (List.mem_range.mp hi)
    refine ⟨heq, hall, hurls, ?_⟩
    rw [hurls]
    exact (List.nodup_range.filter _).map c.proxyUrl_injective
  | stopped =>
    refine Finset.eq_empty_of_forall_notMem fun i hi => ?_
    have hlt := ((hrunning (by rw [hout]; exact FleetOutcome.noConfusion) i).mp hi).1
    rw [hinv.stopped hout] at hlt
    exact Nat.not_lt_zero i hlt

theorem first_instance_left : ∃ s, (machine ⟨2, 9050⟩ "90".toList).Reachable s ∧
    s.running = {0} ∧ (∀ i < s.index, Ready (s.heard i)) ∧ Accounted ⟨2, 9050⟩ s := by
  obtain ⟨s, hs, hrunning⟩ := Machine.exists_reachable (M := machine ⟨2, 9050⟩ "90".toList)
    (P := fun s => s.running = {0} ∧ s.outcome =
      .raised "Tor #1 failed: [err] Reading config failed--see warnings above.".toList)
    [.popen, .hear (.line "[notice] Bootstrapped 100% (done): Done\n".toList), .wake, .popen,
      .hear (.line "[err] Reading config failed--see warnings above.\n".toList), .exit 1, .wake]
      (by decide +kernel)
  exact ⟨s, hs, hrunning.1, (accounted_of_reachable hs).2⟩

end TorFleet

end ProxySplit
