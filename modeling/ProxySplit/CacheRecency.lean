import ProxySplit.CacheTier
import ProxySplit.Lib.Recency

namespace ProxySplit.ResponseCache

open Lib

def new (maxSize : Int) (defaultTtl : PyFloat) (maxBody : Int) : ResponseCache :=
  ⟨maxSize, defaultTtl, maxBody, .empty⟩

inductive Op
  | get (url : Url)
  | put (url : Url) (r : Cached)
  | invalidate (url : Url)
  | clear
  | elapse (dt : ℚ)

def act (s : ResponseCache × Clock) : Op → Option (ResponseCache × Clock)
  | .get url => some ((s.1.get s.2 url).1, s.2)
  | .put url r => some (s.1.put s.2 url r, s.2)
  | .invalidate url => some (s.1.invalidate url, s.2)
  | .clear => some (s.1.clear, s.2)
  | .elapse dt => if 0 ≤ dt then some (s.1, ⟨s.2.monotonic + dt, s.2.time + dt⟩) else none

/-- The urls in the order of their uses, which are accepted puts and hits, and what each url was last put
as, unless it has been invalidated or all was cleared since. -/
structure Usage where
  uses : List Url
  placed : Url → Option Held

namespace Usage

def blank : Usage := ⟨[], fun _ => none⟩

def after (u : Usage) (s : ResponseCache × Clock) (op : Op) (_ : ResponseCache × Clock) : Usage :=
  match op with
  | .get url => if (s.1.get s.2 url).2.isSome then { u with uses := u.uses ++ [url] } else u
  | .put url r =>
    if s.1.accepts r then
      ⟨u.uses ++ [url], Function.update u.placed url (some (.of s.1.defaultTtl s.2 r))⟩
    else u
  | .invalidate url => { u with placed := Function.update u.placed url none }
  | .clear => { u with placed := fun _ => none }
  | .elapse _ => u

end Usage

def recorded (maxSize : Int) (defaultTtl : PyFloat) (maxBody : Int) (start : Clock) :
    Machine ((ResponseCache × Clock) × Usage) Op :=
  Machine.observed ⟨(new maxSize defaultTtl maxBody, start), act⟩ .blank Usage.after

/-- No more entries than `max_size`, in the order of their last use, and an entry stays as long as fewer
other urls than that are used and it has not expired. -/
structure LeastRecent (c : ResponseCache) (now : Clock) (u : Usage) : Prop where
  size_le : c.store.keys.length ≤ c.maxSize
  order : ByLastUse u.uses c.store.keys
  placed : ∀ url w, c.held url = some w → u.placed url = some w
  kept : ∀ url w, u.placed url = some w → w.live now = true →
    (usedSince url u.uses).toFinset.card < c.maxSize → c.held url = some w

section Steps

variable {c : ResponseCache} {now now' : Clock} {u : Usage} {url : Url} {r : Cached}

theorem keys_put (h : c.accepts r = true) : (c.put now url r).store.keys =
    (c.store.keys.filter (· ≠ url) ++ [url]).drop
      ((c.store.keys.filter (· ≠ url) ++ [url]).length - c.maxSize.toNat) := by
  rw [put, h]
  simp only [if_true]
  rw [Dict.keys_dropFirst, Dict.keys_erase_set, ← Dict.keys_erase_set, Dict.keys, List.length_map]

theorem held_put_of_back (h : c.accepts r = true) {front back : List Url} {v : Url} {w : Held}
    (hkeys : c.store.keys.filter (· ≠ url) ++ [url] = front ++ v :: back)
    (hback : back.length < c.maxSize) (hv : v ≠ url) (hheld : c.held v = some w) :
    (c.put now url r).held v = some w := by
  obtain ⟨hen, entry, hentry, heq⟩ := held_eq_some.mp hheld
  refine held_eq_some.mpr ⟨?_, entry, ?_, heq⟩
  · rw [put, h]
    exact hen
  · rw [put, h]
    apply Dict.get?_dropFirst_of_mem
    · rw [Dict.get?_set, if_neg hv, Dict.get?_erase, if_neg hv]
      exact hentry
    · rw [Dict.keys_erase_set, hkeys, ← List.length_map (f := Prod.fst), ← Dict.keys,
        Dict.keys_erase_set, hkeys, List.drop_append_of_le_length]
      · exact List.mem_append_right _ (.head _)
      · simp only [List.length_append, List.length_cons]
        omega

theorem LeastRecent.put (h : LeastRecent c now u) (hacc : c.accepts r = true) :
    LeastRecent (c.put now url r) now
      ⟨u.uses ++ [url], Function.update u.placed url (some (.of c.defaultTtl now r))⟩ := by
  have hsize : 0 < c.maxSize := of_decide_eq_true (enabled_of_accepts hacc)
  have hmax : (c.put now url r).maxSize = c.maxSize := by rw [ResponseCache.put, hacc]; rfl
  have htouched := h.order.touch url
  constructor
  case size_le =>
    rw [keys_put hacc, hmax, List.length_drop]
    omega
  case order =>
    rw [keys_put hacc]
    exact htouched.sublist (List.drop_sublist ..)
  case placed =>
    intro v w hheld
    rcases held_put hheld with ⟨-, rfl, rfl⟩ | ⟨hne, hheld⟩
    · exact Function.update_self ..
    · exact (Function.update_of_ne (hne hacc) ..).trans (h.placed v w hheld)
  case kept =>
    intro v w hplaced hlive hfew
    by_cases hv : v = url
    · subst hv
      simp only [Function.update_self, Option.some.injEq] at hplaced
      rw [← hplaced]
      exact held_put_self hacc
    · simp only [Function.update_of_ne hv] at hplaced
      replace hfew : ((usedSince v (u.uses ++ [url])).toFinset.card : Int) < c.maxSize := hmax ▸ hfew
      have hbefore := card_usedSince_le u.uses (Ne.symm hv)
      have hheld : c.held v = some w := h.kept v w hplaced hlive (by omega)
      obtain ⟨-, entry, hentry, -⟩ := held_eq_some.mp hheld
      have hmem : v ∈ c.store.keys.filter (· ≠ url) ++ [url] := by
        rw [← Dict.keys_erase_set c.store url entry, Dict.mem_keys_iff]
        exact ⟨entry, by rw [Dict.get?_set, if_neg hv, Dict.get?_erase, if_neg hv, hentry]⟩
      have hnodup : (c.store.keys.filter (· ≠ url) ++ [url]).Nodup := by
        rw [← Dict.keys_erase_set c.store url entry]
        exact ((c.store.erase url).set url entry).nodup
      obtain ⟨front, back, hkeys⟩ := List.append_of_mem hmem
      rw [hkeys] at htouched hnodup
      have hback := htouched.length_le hnodup
      exact held_put_of_back hacc hkeys (by omega) hv hheld

theorem get_cases (c : ResponseCache) (now : Clock) (url : Url) :
    (c.enabled = true ∧ ∃ entry, c.store.get? url = some entry ∧ (c.get now url).2.isSome ∧
      (c.get now url).1 = { c with store := (c.store.erase url).set url entry }) ∨
    ((c.get now url).2 = none ∧ (c.get now url).1 = c) ∨
    c.enabled = true ∧ ∃ entry, c.store.get? url = some entry ∧
      entry.expires.lt now.monotonic = true ∧ (c.get now url).2 = none ∧
        (c.get now url).1 = c.invalidate url := by
  rw [get]
  split
  · next hen =>
    split
    · exact .inr (.inl ⟨rfl, rfl⟩)
    · next entry hentry =>
      split
      · next hlt => exact .inr (.inr ⟨hen, entry, hentry, hlt, rfl, rfl⟩)
      · exact .inl ⟨hen, entry, hentry, rfl, rfl⟩
  · exact .inr (.inl ⟨rfl, rfl⟩)

theorem LeastRecent.move {entry : CacheEntry} (h : LeastRecent c now u) (hen : c.enabled = true)
    (hentry : c.store.get? url = some entry) :
    LeastRecent { c with store := (c.store.erase url).set url entry } now
      { u with uses := u.uses ++ [url] } := by
  have hheld : ∀ v, held { c with store := (c.store.erase url).set url entry } v = c.held v := by
    intro v
    have hget : ((c.store.erase url).set url entry).get? v = c.store.get? v := by
      rw [Dict.get?_set, Dict.get?_erase]
      split
      · next hv => rw [hv, hentry]
      · rfl
    change (if c.enabled then ((((c.store.erase url).set url entry).get? v).map fun entry =>
      (⟨entry.cached, entry.expires⟩ : Held)) else none) = c.held v
    rw [hget]
    rfl
  constructor
  case size_le =>
    have hmem : url ∈ c.store.keys := (Dict.mem_keys_iff ..).mpr ⟨entry, hentry⟩
    have hlt : (c.store.keys.filter (· ≠ url)).length < c.store.keys.length :=
      List.length_filter_lt_length_iff_exists.mpr ⟨url, hmem, by simp⟩
    have hle := h.size_le
    rw [Dict.keys_erase_set, List.length_append, List.length_singleton]
    change _ ≤ c.maxSize
    omega
  case order =>
    rw [Dict.keys_erase_set]
    exact h.order.touch url
  case placed => exact fun v w hw => h.placed v w (hheld v ▸ hw)
  case kept =>
    intro v w hplaced hlive hfew
    rw [hheld]
    by_cases hv : v = url
    · subst hv
      have hw : c.held v = some ⟨entry.cached, entry.expires⟩ :=
        held_eq_some.mpr ⟨hen, entry, hentry, rfl, rfl⟩
      rw [hw, ← hplaced]
      exact (h.placed v _ hw).symm
    · have hbefore := card_usedSince_le u.uses (Ne.symm hv)
      exact h.kept v w hplaced hlive (lt_of_le_of_lt (Nat.cast_le.mpr hbefore) hfew)

theorem LeastRecent.remove (h : LeastRecent c now u) {placed : Url → Option Held}
    (hsame : ∀ v, v ≠ url → placed v = u.placed v)
    (hgone : ∀ w, placed url = some w → w.live now = false) :
    LeastRecent (c.invalidate url) now { u with placed := placed } where
  size_le := by
    have hle := h.size_le
    have hfilter := List.length_filter_le (· ≠ url) c.store.keys
    rw [invalidate, Dict.keys_erase]
    change _ ≤ c.maxSize
    omega
  order := by
    rw [invalidate, Dict.keys_erase]
    exact h.order.sublist List.filter_sublist
  placed v w hw := by
    obtain ⟨hv, hw⟩ := held_invalidate hw
    exact (hsame v hv).trans (h.placed v w hw)
  kept v w hplaced hlive hfew := by
    have hv : v ≠ url := by
      rintro rfl
      rw [hgone w hplaced] at hlive
      cases hlive
    have hheld := h.kept v w ((hsame v hv).symm.trans hplaced) hlive hfew
    rw [← hheld, held, held, invalidate, Dict.get?_erase, if_neg hv]
    rfl

theorem LeastRecent.clear (h : LeastRecent c now u) :
    LeastRecent c.clear now { u with placed := fun _ => none } where
  size_le := by
    have hle := h.size_le
    change (0 : Int) ≤ c.maxSize
    omega
  order := .nil _
  placed v w hw := by
    rw [held_clear] at hw
    cases hw
  kept v w hplaced := by cases hplaced

theorem LeastRecent.elapse (h : LeastRecent c now u) (hle : now.monotonic ≤ now'.monotonic) :
    LeastRecent c now' u :=
  { h with kept := fun v w hplaced hlive => h.kept v w hplaced (Held.live_of_le hle hlive) }

end Steps

section Runs

variable {maxSize : Int} {defaultTtl : PyFloat} {maxBody : Int} {start now : Clock} {c : ResponseCache}
  {u : Usage}

theorem maxSize_of_act {s s' : ResponseCache × Clock} {op : Op} (h : act s op = some s') :
    s'.1.maxSize = s.1.maxSize := by
  cases op with
  | get url =>
    cases h
    change (s.1.get s.2 url).1.maxSize = _
    rcases get_cases s.1 s.2 url with ⟨-, entry, -, -, hc⟩ | ⟨-, hc⟩ | ⟨-, entry, -, -, -, hc⟩
    · rw [hc]
    · rw [hc]
    · rw [hc]; rfl
  | put url r =>
    cases h
    change (s.1.put s.2 url r).maxSize = _
    rw [put]
    split
    · rfl
    · rfl
  | invalidate url => cases h; rfl
  | clear => cases h; rfl
  | elapse dt =>
    simp only [act] at h
    split at h
    · cases h; rfl
    · cases h

theorem LeastRecent.step {c' : ResponseCache} {now' : Clock} {op : Op} (h : LeastRecent c now u)
    (hstep : act (c, now) op = some (c', now')) :
    LeastRecent c' now' (u.after (c, now) op (c', now')) := by
  cases op with
  | get url =>
    cases hstep
    rcases get_cases c now url with ⟨hen, entry, hentry, hhit, hc⟩ | ⟨hmiss, hc⟩ |
      ⟨hen, entry, hentry, hlt, hmiss, hc⟩
    · simp only [Usage.after, hhit, if_true, hc]
      exact h.move hen hentry
    · simp only [Usage.after, hmiss, hc]
      exact h
    · simp only [Usage.after, hmiss, hc]
      refine h.remove (fun _ _ => rfl) fun w hw => ?_
      have hplaced := h.placed url ⟨entry.cached, entry.expires⟩
        (held_eq_some.mpr ⟨hen, entry, hentry, rfl, rfl⟩)
      rw [hw] at hplaced
      cases hplaced
      simp [Held.live, hlt]
  | put url r =>
    cases hstep
    cases hacc : c.accepts r with
    | false =>
      simp only [Usage.after, put_refused hacc, hacc]
      exact h
    | true =>
      simp only [Usage.after, hacc, if_true]
      exact h.put hacc
  | invalidate url =>
    cases hstep
    refine h.remove (fun v hv => Function.update_of_ne hv ..) fun w hw => ?_
    simp at hw
  | clear =>
    cases hstep
    exact h.clear
  | elapse dt =>
    simp only [act] at hstep
    split at hstep
    · next hdt =>
      cases hstep
      exact h.elapse (by linarith)
    · cases hstep

theorem leastRecent_of_reachable (hmax : 1 ≤ maxSize)
    (h : (recorded maxSize defaultTtl maxBody start).Reachable ((c, now), u)) :
    LeastRecent c now u ∧ c.maxSize = maxSize := by
  refine h.invariant (I := fun p => LeastRecent p.1.1 p.1.2 p.2 ∧ p.1.1.maxSize = maxSize) ?_ ?_
  · refine ⟨⟨?_, .nil _, fun v w hw => ?_, fun v w hw => by cases hw⟩, rfl⟩
    · change (0 : Int) ≤ maxSize
      omega
    · obtain ⟨-, entry, hentry, -⟩ := held_eq_some.mp hw
      cases hentry
  · rintro ⟨⟨c, now⟩, u⟩ op ⟨⟨c', now'⟩, u'⟩ ⟨hI, hsize⟩ - hstep
    obtain ⟨hact, hu⟩ := Machine.step_of_observed hstep
    rw [hu]
    exact ⟨hI.step hact, (maxSize_of_act hact).trans hsize⟩

/-- The cache holds no more than `max_size` entries, in the order of their last use, and a lookup finds
what was put for the url if it has not expired and fewer other urls have been used since. -/
theorem lru_of_reachable (hmax : 1 ≤ maxSize)
    (h : (recorded maxSize defaultTtl maxBody start).Reachable ((c, now), u)) :
    c.store.keys.length ≤ maxSize ∧ ByLastUse u.uses c.store.keys ∧
      ∀ url w, u.placed url = some w → w.live now = true →
        (usedSince url u.uses).toFinset.card < maxSize → (c.get now url).2 = some w.cached := by
  obtain ⟨hlru, rfl⟩ := leastRecent_of_reachable hmax h
  refine ⟨hlru.size_le, hlru.order, fun url w hplaced hlive hfew => ?_⟩
  exact hit_iff.mpr ⟨w, hlru.kept url w hplaced hlive hfew, hlive, rfl⟩

theorem lru_three_puts : ∃ p, (recorded 2 (.fin 300) 1024 ⟨0, 0⟩).Reachable p ∧
    p.1.1.store.keys = ["http://h/a", "http://h/c"] ∧
      (p.1.1.get p.1.2 "http://h/a").2 = some ⟨200, [], []⟩ := by
  obtain ⟨⟨⟨c, now⟩, u⟩, hreach, hkeys, hplaced⟩ := Machine.exists_reachable
    (M := recorded 2 (.fin 300) 1024 ⟨0, 0⟩)
    (P := fun p => p.1.1.store.keys = ["http://h/a", "http://h/c"] ∧
      p.2.placed "http://h/a" = some ⟨⟨200, [], []⟩, .fin 300⟩ ∧ p.1.2 = ⟨1, 1⟩ ∧
      (usedSince "http://h/a" p.2.uses).toFinset.card = 1)
    [.put "http://h/a" ⟨200, [], []⟩, .put "http://h/b" ⟨200, [], []⟩, .elapse 1, .get "http://h/a",
      .put "http://h/c" ⟨200, [], []⟩] (by decide +kernel)
  obtain ⟨hplaced, rfl, hfew⟩ := hplaced
  refine ⟨_, hreach, hkeys, (lru_of_reachable (by decide) hreach).2.2 _ _ hplaced (by decide +kernel) ?_⟩
  rw [hfew]
  decide

end Runs

end ProxySplit.ResponseCache
