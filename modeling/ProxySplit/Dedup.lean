import ProxySplit.Lib.Machine
import ProxySplit.ProxyStats
import Mathlib.Logic.Function.Basic

namespace ProxySplit

open Lib

inductive FutureResult (α ε : Type)
  | result (v : α)
  | exception (exc : ε)
  | cancelled
  deriving DecidableEq

/-- Where a call of `handle(url)` is: not started, in `do_fetch` as the leader of its url, in `await future`
on the future of a leader (`cancelled` when somebody has cancelled it there), or at its end. -/
inductive DedupCall (α ε : Type)
  | fresh
  | leading (url : Url)
  | waiting (leader : Nat) (cancelled : Bool)
  | led (out : FutureResult α ε)
  | followed (leader : Nat) (cancelled : Bool) (out : FutureResult α ε)
  | dropped
  deriving DecidableEq

/-- `_INFLIGHT` names a future by the call that made it. -/
structure Dedup (α ε : Type) where
  inflight : Dict Url Nat
  futures : Nat → Option (FutureResult α ε)
  calls : Nat → DedupCall α ε

namespace Dedup

variable {α ε : Type}

def init : Dedup α ε := ⟨.empty, fun _ => none, fun _ => .fresh⟩

def dedupGet (s : Dedup α ε) (url : Url) (t : Nat) : Dedup α ε × Nat × Bool :=
  match s.inflight.get? url with
  | some l => (s, l, false)
  | none =>
    ({ s with inflight := s.inflight.set url t, futures := Function.update s.futures t none }, t, true)

/-- `fut = _INFLIGHT.pop(url, None)`, settled if it is not done. -/
def popWith (s : Dedup α ε) (url : Url) (out : FutureResult α ε) : Dedup α ε :=
  match s.inflight.get? url with
  | none => s
  | some l =>
    { s with
      inflight := s.inflight.erase url
      futures := match s.futures l with
        | none => Function.update s.futures l (some out)
        | some _ => s.futures }

def dedupPut (s : Dedup α ε) (url : Url) (result : α) : Dedup α ε := s.popWith url (.result result)

def dedupDone (s : Dedup α ε) (url : Url) : (exc : Option ε) → Dedup α ε
  | some exc => s.popWith url (.exception exc)
  | none => s.popWith url .cancelled

def become (s : Dedup α ε) (t : Nat) (c : DedupCall α ε) : Dedup α ε :=
  { s with calls := Function.update s.calls t c }

/-- `handle` up to its first `await` that suspends.  Awaiting a future that is done does not suspend. -/
def start (s : Dedup α ε) (t : Nat) (url : Url) : Dedup α ε :=
  match s.dedupGet url t with
  | (s, _, true) => s.become t (.leading url)
  | (s, l, false) =>
    match s.futures l with
    | none => s.become t (.waiting l false)
    | some out => s.become t (.followed l false out)

/-- What the leader does when `do_fetch` has ended, the `finally` included. -/
def leave (s : Dedup α ε) (url : Url) (out : FutureResult α ε) : Dedup α ε :=
  let s := match out with
    | .result v => s.dedupPut url v
    | .exception exc => s.dedupDone url (some exc)
    | .cancelled => s
  s.dedupDone url none

/-- `Task.cancel()` of a call that waits for a future cancels the future, or leaves the call to find out
when the future is done already. -/
def cancelWaiting (s : Dedup α ε) (t l : Nat) : Dedup α ε :=
  match s.futures l with
  | none => { s with futures := Function.update s.futures l (some .cancelled) }.become t (.waiting l true)
  | some _ => s.become t (.waiting l true)

inductive Label (α ε : Type)
  | start (t : Nat) (url : Url)
  | fetched (t : Nat) (out : FutureResult α ε)
  | cancel (t : Nat)
  | resume (t : Nat)

/-- One call goes on to its next `await`, or is cancelled. -/
def step (s : Dedup α ε) : Label α ε → Option (Dedup α ε)
  | .start t url =>
    match s.calls t with
    | .fresh => some (s.start t url)
    | _ => none
  | .fetched t out =>
    match s.calls t with
    | .leading url => some ((s.leave url out).become t (.led out))
    | _ => none
  | .cancel t =>
    match s.calls t with
    | .fresh => some (s.become t .dropped)
    | .waiting l _ => some (s.cancelWaiting t l)
    | _ => none
  | .resume t =>
    match s.calls t with
    | .waiting l cancelled =>
      (s.futures l).map fun out =>
        s.become t (.followed l cancelled (if cancelled then .cancelled else out))
    | _ => none

def machine (α ε : Type) : Machine (Dedup α ε) (Label α ε) := ⟨init, step⟩

/-- A url has one leader at a time, whose future is the one in flight, and a leader settles no future but
its own. -/
structure Sound (s : Dedup α ε) : Prop where
  registered : ∀ url l, s.inflight.get? url = some l ↔ s.calls l = .leading url
  settles : ∀ t out s', s.step (.fetched t out) = some s' → ∀ l, s'.futures l ≠ s.futures l → l = t

structure Told (s : Dedup α ε) : Prop where
  waiting : ∀ t l out, s.calls t = .waiting l false → s.futures l = some out → s.calls l = .led out
  followed : ∀ t l out, s.calls t = .followed l false out → s.calls l = .led out

/-- A future that is waited for has a leader at work until it is settled, and then tells what the leader
came to. -/
structure Fair (s : Dedup α ε) : Prop extends Told s where
  awaited : ∀ t l c, s.calls t = .waiting l c → s.futures l = none → ∃ url, s.calls l = .leading url

/-- A follower is cancelled only when nobody else waits for the same future, and a future that was so
cancelled is not given out while it is still in flight. -/
def Considerate (s : Dedup α ε) : Label α ε → Prop
  | .start _ url => ∀ l, s.inflight.get? url = some l → s.futures l = none
  | .cancel t => ∀ l c, s.calls t = .waiting l c → s.futures l = none →
      ∀ t' c', s.calls t' = .waiting l c' → t' = t
  | _ => True

inductive Move (s : Dedup α ε) : Label α ε → Dedup α ε → Prop
  | lead (t : Nat) (url : Url) (fresh : s.calls t = .fresh) (free : s.inflight.get? url = none) :
      Move s (.start t url) ⟨s.inflight.set url t, Function.update s.futures t none,
        Function.update s.calls t (.leading url)⟩
  | join (t : Nat) (url : Url) (l : Nat) (fresh : s.calls t = .fresh)
      (taken : s.inflight.get? url = some l) (pending : s.futures l = none) :
      Move s (.start t url) (s.become t (.waiting l false))
  | joinDone (t : Nat) (url : Url) (l : Nat) (out : FutureResult α ε) (fresh : s.calls t = .fresh)
      (taken : s.inflight.get? url = some l) (done : s.futures l = some out) :
      Move s (.start t url) (s.become t (.followed l false out))
  | fetched (t : Nat) (url : Url) (out : FutureResult α ε) (leading : s.calls t = .leading url) :
      Move s (.fetched t out) ((s.leave url out).become t (.led out))
  | drop (t : Nat) (fresh : s.calls t = .fresh) : Move s (.cancel t) (s.become t .dropped)
  | cancelPending (t l : Nat) (c : Bool) (waiting : s.calls t = .waiting l c)
      (pending : s.futures l = none) :
      Move s (.cancel t) ⟨s.inflight, Function.update s.futures l (some .cancelled),
        Function.update s.calls t (.waiting l true)⟩
  | cancelDone (t l : Nat) (c : Bool) (out : FutureResult α ε) (waiting : s.calls t = .waiting l c)
      (done : s.futures l = some out) : Move s (.cancel t) (s.become t (.waiting l true))
  | resume (t l : Nat) (c : Bool) (out : FutureResult α ε) (waiting : s.calls t = .waiting l c)
      (done : s.futures l = some out) :
      Move s (.resume t) (s.become t (.followed l c (if c then .cancelled else out)))

variable {s s' : Dedup α ε} {lab : Label α ε} {t l : Nat} {url : Url} {out : FutureResult α ε}

theorem move_of_step (h : s.step lab = some s') : Move s lab s' := by
  cases lab with
  | start t url =>
    rw [step] at h
    split at h
    · next hfresh =>
      cases h
      unfold start dedupGet
      cases hget : s.inflight.get? url with
      | none => exact .lead t url hfresh hget
      | some l =>
        dsimp only
        cases hfut : s.futures l with
        | none => exact .join t url l hfresh hget hfut
        | some out => exact .joinDone t url l out hfresh hget hfut
    · cases h
  | fetched t out =>
    rw [step] at h
    split at h
    · next url hlead => cases h; exact .fetched t url out hlead
    · cases h
  | cancel t =>
    rw [step] at h
    split at h
    · next hfresh => cases h; exact .drop t hfresh
    · next l c hwait =>
      cases h
      unfold cancelWaiting
      cases hfut : s.futures l with
      | none => exact .cancelPending t l c hwait hfut
      | some out => exact .cancelDone t l c out hwait hfut
    · cases h
  | resume t =>
    rw [step] at h
    split at h
    · next l c hwait =>
      obtain ⟨out, hfut, rfl⟩ := Option.map_eq_some_iff.mp h
      exact .resume t l c out hwait hfut
    · cases h

@[simp] theorem calls_popWith (s : Dedup α ε) (url : Url) (out : FutureResult α ε) :
    (s.popWith url out).calls = s.calls := by
  unfold popWith
  split <;> rfl

theorem popWith_of_get? (out : FutureResult α ε) (h : s.inflight.get? url = some t) :
    (s.popWith url out).inflight = s.inflight.erase url ∧
      ∀ l, (s.popWith url out).futures l =
        if l = t ∧ s.futures t = none then some out else s.futures l := by
  unfold popWith
  rw [h]
  refine ⟨rfl, fun l => ?_⟩
  cases hfut : s.futures t with
  | none =>
    by_cases hl : l = t
    · simp [hl, hfut]
    · simp [hl, hfut]
  | some o => simp [hfut]

theorem popWith_of_none (h : s.inflight.get? url = none) : s.popWith url out = s := by
  rw [popWith, h]

theorem leave_eq (h : s.inflight.get? url = some t) : s.leave url out = s.popWith url out := by
  have hgone : ∀ out : FutureResult α ε, (s.popWith url out).inflight.get? url = none := by
    intro out
    rw [(popWith_of_get? out h).1, Dict.get?_erase, if_pos rfl]
  cases out with
  | result v => exact popWith_of_none (hgone _)
  | exception exc => exact popWith_of_none (hgone _)
  | cancelled => rfl

structure Inv (s : Dedup α ε) : Prop where
  registered : ∀ url l, s.inflight.get? url = some l ↔ s.calls l = .leading url
  known : ∀ t l c, s.calls t = .waiting l c → s.calls l ≠ .fresh
  awaited : ∀ t l c, s.calls t = .waiting l c → s.futures l = none → ∃ url, s.calls l = .leading url
  flagged : ∀ t l, s.calls t = .waiting l true → ∃ out, s.futures l = some out

theorem Inv.init : Inv (init : Dedup α ε) where
  registered _ _ := by simp [Dedup.init]
  known _ _ _ h := by simp [Dedup.init] at h
  awaited _ _ _ h := by simp [Dedup.init] at h
  flagged _ _ h := by simp [Dedup.init] at h

theorem Inv.become (h : Inv s) {c : DedupCall α ε} (hfrom : ∀ url, s.calls t ≠ .leading url)
    (hto : ∀ url, c ≠ .leading url) (hfresh : c ≠ .fresh)
    (hwait : ∀ l b, c = .waiting l b → s.calls l ≠ .fresh ∧
      (s.futures l = none → ∃ url, s.calls l = .leading url) ∧
        (b = true → ∃ out, s.futures l = some out)) : Inv (s.become t c) := by
  have hleads : ∀ l url, (s.become t c).calls l = .leading url ↔ s.calls l = .leading url := by
    intro l url
    by_cases hl : l = t
    · subst hl
      simp only [Dedup.become, Function.update_self]
      exact iff_of_false (hto url) (hfrom url)
    · simp only [Dedup.become, Function.update_of_ne hl]
  have hwaits : ∀ t' l b, (s.become t c).calls t' = .waiting l b →
      s.calls t' = .waiting l b ∨ c = .waiting l b := by
    intro t' l b hcall
    by_cases ht : t' = t
    · subst ht
      simp only [Dedup.become, Function.update_self] at hcall
      exact .inr hcall
    · simp only [Dedup.become, Function.update_of_ne ht] at hcall
      exact .inl hcall
  refine ⟨fun url l => (h.registered url l).trans (hleads l url).symm, ?_, ?_, ?_⟩
  · intro t' l b hcall
    have hknown : s.calls l ≠ .fresh := (hwaits t' l b hcall).elim (h.known t' l b) fun hc => (hwait l b hc).1
    by_cases hl : l = t
    · subst hl
      simpa only [Dedup.become, Function.update_self] using hfresh
    · simpa only [Dedup.become, Function.update_of_ne hl] using hknown
  · intro t' l b hcall hnone
    have hleading : ∃ url, s.calls l = .leading url :=
      (hwaits t' l b hcall).elim (fun hc => h.awaited t' l b hc hnone) fun hc => (hwait l b hc).2.1 hnone
    obtain ⟨url, hurl⟩ := hleading
    exact ⟨url, (hleads l url).mpr hurl⟩
  · intro t' l hcall
    exact (hwaits t' l true hcall).elim (h.flagged t' l) fun hc => (hwait l true hc).2.2 rfl

theorem Inv.lead (h : Inv s) (hfresh : s.calls t = .fresh) (hfree : s.inflight.get? url = none) :
    Inv (⟨s.inflight.set url t, Function.update s.futures t none,
      Function.update s.calls t (.leading url)⟩ : Dedup α ε) := by
  have hnot : ∀ l, s.calls l ≠ .leading url := by
    intro l hl
    rw [(h.registered url l).mpr hl] at hfree
    cases hfree
  have hwaits : ∀ t' l b, Function.update s.calls t (.leading url) t' = .waiting l b →
      s.calls t' = .waiting l b ∧ l ≠ t := by
    intro t' l b hcall
    have ht : t' ≠ t := by
      rintro rfl
      simp at hcall
    rw [Function.update_of_ne ht] at hcall
    refine ⟨hcall, ?_⟩
    rintro rfl
    exact h.known t' l b hcall hfresh
  constructor
  · intro url' l
    dsimp only
    rw [Dict.get?_set]
    by_cases hurl : url' = url
    · subst hurl
      rw [if_pos rfl]
      by_cases hl : l = t
      · subst hl
        simp
      · rw [Function.update_of_ne hl]
        exact iff_of_false (fun heq => hl (Option.some.inj heq).symm) (hnot l)
    · rw [if_neg hurl, h.registered]
      by_cases hl : l = t
      · subst hl
        rw [Function.update_self, hfresh]
        exact iff_of_false nofun fun heq => hurl (DedupCall.leading.inj heq).symm
      · rw [Function.update_of_ne hl]
  · intro t' l b hcall
    obtain ⟨hcall, hl⟩ := hwaits t' l b hcall
    dsimp only
    rw [Function.update_of_ne hl]
    exact h.known t' l b hcall
  · intro t' l b hcall hnone
    obtain ⟨hcall, hl⟩ := hwaits t' l b hcall
    dsimp only at hnone ⊢
    rw [Function.update_of_ne hl] at hnone ⊢
    exact h.awaited t' l b hcall hnone
  · intro t' l hcall
    obtain ⟨hcall, hl⟩ := hwaits t' l true hcall
    dsimp only
    rw [Function.update_of_ne hl]
    exact h.flagged t' l hcall

theorem futures_leave (out : FutureResult α ε) (hget : s.inflight.get? url = some t) :
    (s.leave url out).futures t = some ((s.futures t).getD out) ∧
      ∀ l, l ≠ t → (s.leave url out).futures l = s.futures l := by
  obtain ⟨-, hfutures⟩ := popWith_of_get? out hget
  rw [leave_eq hget]
  constructor
  · rw [hfutures]
    cases hfut : s.futures t with
    | none => simp
    | some o => simp
  · intro l hl
    rw [hfutures, if_neg fun h => hl h.1]

theorem Inv.fetched (h : Inv s) (hlead : s.calls t = .leading url) :
    Inv ((s.leave url out).become t (.led out)) := by
  have hget := (h.registered url t).mpr hlead
  obtain ⟨hsettled, hothers⟩ := futures_leave out hget
  have hinflight : (s.leave url out).inflight = s.inflight.erase url := by
    rw [leave_eq hget, (popWith_of_get? out hget).1]
  have hcalls : (s.leave url out).calls = s.calls := by rw [leave_eq hget, calls_popWith]
  have hwaits : ∀ t' l b, Function.update s.calls t (.led out) t' = .waiting l b →
      s.calls t' = .waiting l b := by
    intro t' l b hcall
    have ht : t' ≠ t := by
      rintro rfl
      simp at hcall
    rwa [Function.update_of_ne ht] at hcall
  constructor
  · intro url' l
    simp only [Dedup.become, hinflight, hcalls, Dict.get?_erase]
    by_cases hl : l = t
    · subst hl
      rw [Function.update_self]
      split
      · exact iff_of_false (by rintro ⟨⟩) (by rintro ⟨⟩)
      · next hurl =>
        refine iff_of_false (fun hsome => ?_) (by rintro ⟨⟩)
        rw [(h.registered url' l).mp hsome] at hlead
        exact hurl (DedupCall.leading.inj hlead)
    · rw [Function.update_of_ne hl, ← h.registered]
      split
      · next hurl =>
        subst hurl
        refine iff_of_false (by rintro ⟨⟩) fun hsome => ?_
        exact hl (Option.some.inj (hsome.symm.trans hget))
      · rfl
  · intro t' l b hcall
    simp only [Dedup.become, hcalls] at hcall ⊢
    have hknown := h.known t' l b (hwaits t' l b hcall)
    by_cases hl : l = t
    · subst hl
      rw [Function.update_self]
      rintro ⟨⟩
    · rwa [Function.update_of_ne hl]
  · intro t' l b hcall hnone
    simp only [Dedup.become, hcalls] at hcall hnone ⊢
    by_cases hl : l = t
    · subst hl
      rw [hsettled] at hnone
      cases hnone
    · rw [hothers l hl] at hnone
      rw [Function.update_of_ne hl]
      exact h.awaited t' l b (hwaits t' l b hcall) hnone
  · intro t' l hcall
    simp only [Dedup.become, hcalls] at hcall ⊢
    by_cases hl : l = t
    · subst hl
      exact ⟨_, hsettled⟩
    · rw [hothers l hl]
      exact h.flagged t' l (hwaits t' l true hcall)

theorem Inv.cancelFuture (h : Inv s) (l : Nat) :
    Inv (⟨s.inflight, Function.update s.futures l (some .cancelled), s.calls⟩ : Dedup α ε) := by
  refine ⟨h.registered, h.known, ?_, ?_⟩
  · intro t' l' b hcall hnone
    dsimp only at hnone
    by_cases hl : l' = l
    · subst hl
      rw [Function.update_self] at hnone
      cases hnone
    · rw [Function.update_of_ne hl] at hnone
      exact h.awaited t' l' b hcall hnone
  · intro t' l' hcall
    dsimp only
    by_cases hl : l' = l
    · subst hl
      exact ⟨_, Function.update_self ..⟩
    · rw [Function.update_of_ne hl]
      exact h.flagged t' l' hcall

theorem Inv.move (h : Inv s) (hm : Move s lab s') : Inv s' := by
  cases hm with
  | lead t url fresh free => exact h.lead fresh free
  | join t url l fresh taken pending =>
    refine h.become (by simp [fresh]) nofun nofun ?_
    rintro _ _ ⟨⟩
    have hleading := (h.registered url l).mp taken
    exact ⟨by simp [hleading], fun _ => ⟨url, hleading⟩, nofun⟩
  | joinDone t url l out fresh taken done => exact h.become (by simp [fresh]) nofun nofun nofun
  | fetched t url out leading => exact h.fetched leading
  | drop t fresh => exact h.become (by simp [fresh]) nofun nofun nofun
  | cancelPending t l c waiting pending =>
    refine (h.cancelFuture l).become (by simp [waiting]) nofun nofun ?_
    rintro _ _ ⟨⟩
    exact ⟨h.known t l c waiting, by simp, fun _ => ⟨_, Function.update_self ..⟩⟩
  | cancelDone t l c out waiting done =>
    refine h.become (by simp [waiting]) nofun nofun ?_
    rintro _ _ ⟨⟩
    exact ⟨h.known t l c waiting, by simp [done], fun _ => ⟨out, done⟩⟩
  | resume t l c out waiting done => exact h.become (by simp [waiting]) nofun nofun nofun

theorem inv_of_reachable (hs : (machine α ε).Reachable s) : Inv s :=
  hs.invariant (I := Inv) .init fun _ _ _ hI _ hstep => hI.move (move_of_step hstep)

theorem Inv.sound (h : Inv s) : Sound s := by
  refine ⟨h.registered, fun t out s' hstep l hl => ?_⟩
  cases move_of_step hstep with
  | fetched _ url _ leading =>
    by_contra hne
    exact hl ((futures_leave _ ((h.registered url t).mpr leading)).2 l hne)

theorem Told.become (h : Told s) {c : DedupCall α ε} (hfrom : ∀ out, s.calls t ≠ .led out)
    (hwait : ∀ l out, c = .waiting l false → s.futures l = some out → s.calls l = .led out)
    (hfollow : ∀ l out, c = .followed l false out → s.calls l = .led out) : Told (s.become t c) := by
  have hled : ∀ l out, s.calls l = .led out → (s.become t c).calls l = .led out := by
    intro l out hl
    have hne : l ≠ t := by
      rintro rfl
      exact hfrom out hl
    simpa only [Dedup.become, Function.update_of_ne hne] using hl
  constructor
  · intro t' l out hcall hfut
    by_cases ht : t' = t
    · subst ht
      simp only [Dedup.become, Function.update_self] at hcall
      exact hled l out (hwait l out hcall hfut)
    · simp only [Dedup.become, Function.update_of_ne ht] at hcall
      exact hled l out (h.waiting t' l out hcall hfut)
  · intro t' l out hcall
    by_cases ht : t' = t
    · subst ht
      simp only [Dedup.become, Function.update_self] at hcall
      exact hled l out (hfollow l out hcall)
    · simp only [Dedup.become, Function.update_of_ne ht] at hcall
      exact hled l out (h.followed t' l out hcall)

theorem Told.congr (h : Told s) (hcalls : s'.calls = s.calls)
    (hfut : ∀ t l, s.calls t = .waiting l false → s'.futures l = s.futures l) : Told s' := by
  refine ⟨fun t l out hcall hout => ?_, fun t l out hcall => ?_⟩
  · rw [hcalls] at hcall ⊢
    exact h.waiting t l out hcall ((hfut t l hcall).symm.trans hout)
  · rw [hcalls] at hcall ⊢
    exact h.followed t l out hcall

theorem Told.fetched (hI : Inv s) (h : Told s) (hlead : s.calls t = .leading url) :
    Told ((s.leave url out).become t (.led out)) := by
  have hget := (hI.registered url t).mpr hlead
  obtain ⟨hsettled, hothers⟩ := futures_leave out hget
  have hcalls : (s.leave url out).calls = s.calls := by rw [leave_eq hget, calls_popWith]
  have hled : ∀ l o, s.calls l = .led o → l ≠ t := by
    rintro l o hl rfl
    rw [hlead] at hl
    cases hl
  constructor
  · intro t' l o hcall hfut
    have ht : t' ≠ t := by
      rintro rfl
      simp [Dedup.become] at hcall
    simp only [Dedup.become, hcalls, Function.update_of_ne ht] at hcall hfut ⊢
    by_cases hl : l = t
    · subst hl
      rw [hsettled] at hfut
      cases hpending : s.futures l with
      | none =>
        rw [hpending] at hfut
        cases hfut
        exact Function.update_self ..
      | some o' => exact absurd rfl (hled l o' (h.waiting t' l o' hcall hpending))
    · rw [hothers l hl] at hfut
      rw [Function.update_of_ne hl]
      exact h.waiting t' l o hcall hfut
  · intro t' l o hcall
    have ht : t' ≠ t := by
      rintro rfl
      simp [Dedup.become] at hcall
    simp only [Dedup.become, hcalls, Function.update_of_ne ht] at hcall ⊢
    have hl := h.followed t' l o hcall
    rw [Function.update_of_ne (hled l o hl)]
    exact hl

theorem Told.move (hI : Inv s) (h : Told s) (hcond : Considerate s lab) (hm : Move s lab s') :
    Told s' := by
  cases hm with
  | lead t url fresh free =>
    have hset : Told (⟨s.inflight.set url t, Function.update s.futures t none, s.calls⟩ : Dedup α ε) := by
      refine h.congr rfl fun t' l hcall => Function.update_of_ne ?_ ..
      rintro rfl
      exact hI.known t' l false hcall fresh
    exact hset.become (by simp [fresh]) nofun nofun
  | join t url l fresh taken pending =>
    refine h.become (by simp [fresh]) ?_ nofun
    rintro _ out ⟨⟩ hout
    rw [pending] at hout
    cases hout
  | joinDone t url l out fresh taken done =>
    rw [hcond l taken] at done
    cases done
  | fetched t url out leading => exact h.fetched hI leading
  | drop t fresh => exact h.become (by simp [fresh]) nofun nofun
  | cancelPending t l c waiting pending =>
    have hflag : Told (s.become t (.waiting l true)) := h.become (by simp [waiting]) nofun nofun
    refine hflag.congr rfl fun t' l' hcall => Function.update_of_ne ?_ ..
    rintro rfl
    have ht : t' ≠ t := by
      rintro rfl
      simp [Dedup.become] at hcall
    simp only [Dedup.become, Function.update_of_ne ht] at hcall
    exact ht (hcond l' c waiting pending t' false hcall)
  | cancelDone t l c out waiting done => exact h.become (by simp [waiting]) nofun nofun
  | resume t l c out waiting done =>
    refine h.become (by simp [waiting]) nofun ?_
    rintro _ _ ⟨⟩
    simp only [Bool.false_eq_true, if_false]
    exact h.waiting t l out waiting done

/-- Whatever breaks the condition has somebody told what the leader has not come to. -/
theorem considerate_of_told (hI : Inv s) (hm : Move s lab s') (h : Told s') : Considerate s lab := by
  cases hm with
  | lead t url fresh free =>
    intro l hl
    rw [free] at hl
    cases hl
  | join t url l fresh taken pending =>
    intro l' hl'
    obtain rfl := Option.some.inj (taken.symm.trans hl')
    exact pending
  | joinDone t url l out fresh taken done =>
    have hleading := (hI.registered url l).mp taken
    have hne : l ≠ t := by
      rintro rfl
      rw [fresh] at hleading
      cases hleading
    have hled := h.followed t l out (Function.update_self ..)
    simp only [Dedup.become, Function.update_of_ne hne, hleading] at hled
    cases hled
  | fetched | resume => trivial
  | drop t fresh =>
    intro l c hwait
    rw [fresh] at hwait
    cases hwait
  | cancelPending t l c waiting pending =>
    intro l' c' hwait _ t' b hcall
    obtain ⟨rfl, -⟩ := DedupCall.waiting.inj (waiting.symm.trans hwait)
    by_contra ht
    obtain ⟨url, hleading⟩ := hI.awaited t l c waiting pending
    cases b with
    | true =>
      obtain ⟨out, hout⟩ := hI.flagged t' l hcall
      rw [pending] at hout
      cases hout
    | false =>
      have hne : l ≠ t := by
        rintro rfl
        rw [waiting] at hleading
        cases hleading
      have hled := h.waiting t' l .cancelled ((Function.update_of_ne ht ..).trans hcall)
        (Function.update_self ..)
      simp only [Function.update_of_ne hne, hleading] at hled
      cases hled
  | cancelDone t l c out waiting done =>
    intro l' c' hwait hnone
    obtain ⟨rfl, -⟩ := DedupCall.waiting.inj (waiting.symm.trans hwait)
    rw [done] at hnone
    cases hnone

theorem told_of_reach (hs : (machine α ε).Reach Considerate s) : Inv s ∧ Told s := by
  refine hs.invariant (I := fun s => Inv s ∧ Told s) ⟨.init, ?_, ?_⟩ ?_
  · rintro _ _ _ ⟨⟩
  · rintro _ _ _ ⟨⟩
  · rintro s lab s' ⟨hI, hT⟩ hok hstep
    have hm := move_of_step hstep
    exact ⟨hI.move hm, hT.move hI hok hm⟩

/-- In every run a url has one leader, which settles its own future only.  Followers get what their leader
came to as long as every cancellation of a follower is considerate of the others, and no longer. -/
theorem fair_iff (s : Dedup α ε) : ((machine α ε).Reachable s → Sound s) ∧
    ((machine α ε).Reach Considerate s → Fair s ∧
      ∀ lab s', s.step lab = some s' → (Fair s' ↔ Considerate s lab)) := by
  refine ⟨fun hs => (inv_of_reachable hs).sound, fun hs => ?_⟩
  obtain ⟨hI, hT⟩ := told_of_reach hs
  refine ⟨⟨hT, hI.awaited⟩, fun lab s' hstep => ?_⟩
  have hm := move_of_step hstep
  constructor
  · exact fun h => considerate_of_told hI hm h.toTold
  · exact fun hcond => ⟨hT.move hI hcond hm, (hI.move hm).awaited⟩

theorem fair_of_two : ∃ s : Dedup Nat String, Fair s ∧ s.calls 1 = .followed 0 false (.result 7) := by
  let url : Url := "http://origin.example/file"
  have hstart : (machine Nat String).Reach Considerate ((Dedup.init.start 0 url).start 1 url) := by
    refine .step (.step .init (l := .start 0 url) ?_ rfl) (l := .start 1 url) ?_ rfl
    · rintro _ ⟨⟩
    · rintro _ ⟨⟩
      rfl
  have hfetched := hstart.step (l := Label.fetched 0 (.result 7)) trivial rfl
  have hend := hfetched.step (l := Label.resume 1) trivial rfl
  exact ⟨_, ((fair_iff _).2 hend).1, rfl⟩

/-- One of two followers is cancelled, and the other one gets a cancellation while the leader is still at
work. -/
theorem follower_cancels_others : ¬ ∀ s : Dedup Nat String, (machine Nat String).Reachable s → Fair s := by
  intro h
  let url : Url := "http://origin.example/file"
  obtain ⟨s, hs, hled, hfollowed⟩ := Machine.exists_reachable (M := machine Nat String)
    (P := fun s => s.calls 0 = .leading url ∧ s.calls 2 = .followed 0 false .cancelled)
    [.start 0 url, .start 1 url, .start 2 url, .cancel 1, .resume 2] (by decide +kernel)
  have htold := (h s hs).followed 2 0 .cancelled hfollowed
  rw [hled] at htold
  cases htold

end Dedup

end ProxySplit
