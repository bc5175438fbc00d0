import ProxySplit.Cache
import ProxySplit.Lib.Machine

namespace ProxySplit

open Lib

structure Held where
  cached : Cached
  expires : PyFloat
  deriving DecidableEq

def Held.live (w : Held) (now : Clock) : Bool := !w.expires.lt now.monotonic

theorem Held.live_of_le {w : Held} {now later : Clock} (h : now.monotonic ≤ later.monotonic)
    (hlive : w.live later = true) : w.live now = true := by
  rw [live, Bool.not_eq_true'] at hlive ⊢
  cases hlt : w.expires.lt now.monotonic with
  | false => rfl
  | true => exact absurd ((PyFloat.lt_mono h hlt).symm.trans hlive) (Ne.symm Bool.false_ne_true)

def Held.of (defaultTtl : PyFloat) (now : Clock) (r : Cached) : Held :=
  ⟨r, (ttlOf r.headers defaultTtl).addTo now.monotonic⟩

theorem Held.live_of {defaultTtl : PyFloat} {now : Clock} {r : Cached}
    (h : ¬ (ttlOf r.headers defaultTtl).le 0 = true) : (Held.of defaultTtl now r).live now = true := by
  rw [live, Held.of, PyFloat.not_lt_addTo h]
  rfl

/-- The API that both caches have, as a table of what is held.  Both may drop an entry at any `put`. -/
structure Tier (γ : Type) where
  get : γ → Clock → Url → γ × Option Cached
  put : γ → Clock → Url → Cached → γ
  invalidate : γ → Url → γ
  clear : γ → γ
  accepts : γ → Cached → Bool
  defaultTtl : γ → PyFloat
  held : γ → Url → Option Held
  hit_iff : ∀ {c now url r},
    (get c now url).2 = some r ↔ ∃ w, held c url = some w ∧ w.live now = true ∧ w.cached = r
  held_get : ∀ {c now url u w}, held (get c now url).1 u = some w → held c u = some w
  held_put : ∀ {c now url r u w}, held (put c now url r) u = some w →
    accepts c r = true ∧ u = url ∧ w = .of (defaultTtl c) now r ∨
      (accepts c r = true → u ≠ url) ∧ held c u = some w
  ttl_pos : ∀ {c r}, accepts c r = true → ¬ (ttlOf r.headers (defaultTtl c)).le 0 = true
  put_refused : ∀ {c now url r}, accepts c r = false → put c now url r = c
  held_invalidate : ∀ {c url u w}, held (invalidate c url) u = some w → u ≠ url ∧ held c u = some w
  held_clear : ∀ {c u}, held (clear c) u = none
  accepts_get : ∀ {c now url}, accepts (get c now url).1 = accepts c
  accepts_put : ∀ {c now url r}, accepts (put c now url r) = accepts c
  accepts_invalidate : ∀ {c url}, accepts (invalidate c url) = accepts c

namespace ResponseCache

variable {c : ResponseCache} {now : Clock} {url u : Url} {r : Cached} {w : Held}

def held (c : ResponseCache) (url : Url) : Option Held :=
  if c.enabled then (c.store.get? url).map fun entry => ⟨entry.cached, entry.expires⟩ else none

theorem held_eq_some : c.held url = some w ↔ c.enabled = true ∧
    ∃ entry, c.store.get? url = some entry ∧ entry.cached = w.cached ∧ entry.expires = w.expires := by
  unfold held
  split
  · next h =>
    rw [Option.map_eq_some_iff]
    simp only [h, true_and]
    constructor
    · rintro ⟨entry, hentry, rfl⟩
      exact ⟨entry, hentry, rfl, rfl⟩
    · rintro ⟨entry, hentry, hcached, hexpires⟩
      exact ⟨entry, hentry, by rw [hcached, hexpires]⟩
  · next h => simp [h]

theorem hit_iff :
    (c.get now url).2 = some r ↔ ∃ w, c.held url = some w ∧ w.live now = true ∧ w.cached = r := by
  unfold get held
  split
  · split
    · next hnone => simp [hnone]
    · next entry hentry =>
      simp only [hentry, Option.map_some, Option.some.injEq, exists_eq_left', Held.live]
      split
      · next hlt => simp [hlt]
      · next hlt => simp [hlt]
  · simp

theorem enabled_get : (c.get now url).1.enabled = c.enabled := by
  unfold get
  split
  · split
    · rfl
    · split
      · rfl
      · rfl
  · rfl

theorem held_get (h : (c.get now url).1.held u = some w) : c.held u = some w := by
  rw [held_eq_some, enabled_get] at h
  obtain ⟨hen, entry, hentry, heq⟩ := h
  exact held_eq_some.mpr ⟨hen, entry, stored_of_get hentry, heq⟩

theorem put_refused (h : c.accepts r = false) : c.put now url r = c := by
  rw [put, h]
  rfl

theorem enabled_of_accepts (h : c.accepts r = true) : c.enabled = true := by
  simp only [accepts, Bool.decide_and, Bool.and_eq_true, decide_eq_true_eq] at h
  exact h.1

theorem held_put (h : (c.put now url r).held u = some w) :
    c.accepts r = true ∧ u = url ∧ w = .of c.defaultTtl now r ∨
      (c.accepts r = true → u ≠ url) ∧ c.held u = some w := by
  cases hacc : c.accepts r with
  | false =>
    rw [put_refused hacc] at h
    exact .inr ⟨nofun, h⟩
  | true =>
    obtain ⟨-, entry, hentry, hcached, hexpires⟩ := held_eq_some.mp h
    rw [put, hacc] at hentry
    have hset := get?_dropFirst hentry
    rw [Dict.get?_set, Dict.get?_erase] at hset
    by_cases hu : u = url
    · rw [if_pos hu] at hset
      cases hset
      refine .inl ⟨rfl, hu, ?_⟩
      obtain ⟨cached, expires⟩ := w
      cases hcached
      cases hexpires
      rfl
    · rw [if_neg hu, if_neg hu] at hset
      exact .inr ⟨fun _ => hu, held_eq_some.mpr ⟨enabled_of_accepts hacc, entry, hset, hcached, hexpires⟩⟩

theorem held_put_self (h : c.accepts r = true) :
    (c.put now url r).held url = some (.of c.defaultTtl now r) := by
  have hsize : 0 < c.maxSize := of_decide_eq_true (enabled_of_accepts h)
  rw [held_eq_some, put, h]
  refine ⟨enabled_of_accepts h,
    ⟨r, (ttlOf r.headers c.defaultTtl).addTo now.monotonic, now.time⟩, ?_, rfl, rfl⟩
  apply Dict.get?_dropFirst_erase_set
  rw [Dict.entries_erase_set, List.length_append, List.length_singleton]
  omega

theorem held_invalidate (h : (c.invalidate url).held u = some w) : u ≠ url ∧ c.held u = some w := by
  obtain ⟨hen, entry, hentry, heq⟩ := held_eq_some.mp h
  simp only [invalidate, Dict.get?_erase] at hentry
  split at hentry
  · cases hentry
  · next hu => exact ⟨hu, held_eq_some.mpr ⟨hen, entry, hentry, heq⟩⟩

theorem held_clear : c.clear.held u = none := by
  unfold held
  split
  · rfl
  · rfl

theorem accepts_get : (c.get now url).1.accepts = c.accepts := by
  unfold get
  split
  · split
    · rfl
    · split
      · rfl
      · rfl
  · rfl

theorem accepts_put : (c.put now url r).accepts = c.accepts := by
  unfold put
  split
  · rfl
  · rfl

theorem defaultTtl_get : (c.get now url).1.defaultTtl = c.defaultTtl := by
  unfold get
  split
  · split
    · rfl
    · split
      · rfl
      · rfl
  · rfl

theorem defaultTtl_put : (c.put now url r).defaultTtl = c.defaultTtl := by
  unfold put
  split
  · rfl
  · rfl

theorem ttl_pos (h : c.accepts r = true) : ¬ (ttlOf r.headers c.defaultTtl).le 0 = true := by
  simp only [accepts, Bool.decide_and, Bool.and_eq_true, decide_eq_true_eq] at h
  exact h.2.2.2

def tier : Tier ResponseCache where
  get := get
  put := put
  invalidate := invalidate
  clear := clear
  accepts := accepts
  defaultTtl := defaultTtl
  held := held
  hit_iff := hit_iff
  held_get := held_get
  held_put := held_put
  ttl_pos := ttl_pos
  put_refused := put_refused
  held_invalidate := held_invalidate
  held_clear := held_clear
  accepts_get := accepts_get
  accepts_put := accepts_put
  accepts_invalidate := rfl

end ResponseCache

namespace DiskCache

variable {c : DiskCache} {now : Clock} {url u : Url} {r : Cached} {w : Held}

def held (c : DiskCache) (url : Url) : Option Held :=
  (c.responses.get? url).map fun row => ⟨row.cached, row.expires⟩

theorem held_eq_some : c.held url = some w ↔
    ∃ row, c.responses.get? url = some row ∧ row.cached = w.cached ∧ row.expires = w.expires := by
  rw [held, Option.map_eq_some_iff]
  constructor
  · rintro ⟨row, hrow, rfl⟩
    exact ⟨row, hrow, rfl, rfl⟩
  · rintro ⟨row, hrow, hcached, hexpires⟩
    exact ⟨row, hrow, by rw [hcached, hexpires]⟩

theorem hit_iff :
    (c.get now url).2 = some r ↔ ∃ w, c.held url = some w ∧ w.live now = true ∧ w.cached = r := by
  unfold get held
  split
  · next hnone => simp [hnone]
  · next row hrow =>
    simp only [hrow, Option.map_some, Option.some.injEq, exists_eq_left', Held.live]
    split
    · next hlt => simp [hlt]
    · next hlt => simp [hlt]

theorem held_get (h : (c.get now url).1.held u = some w) : c.held u = some w := by
  obtain ⟨row, hrow, heq⟩ := held_eq_some.mp h
  exact held_eq_some.mpr ⟨row, stored_of_get hrow, heq⟩

theorem put_refused (h : c.accepts r = false) : c.put now url r = c := by
  rw [put, h]
  rfl

theorem held_put (h : (c.put now url r).held u = some w) :
    c.accepts r = true ∧ u = url ∧ w = .of c.defaultTtl now r ∨
      (c.accepts r = true → u ≠ url) ∧ c.held u = some w := by
  cases hacc : c.accepts r with
  | false =>
    rw [put_refused hacc] at h
    exact .inr ⟨nofun, h⟩
  | true =>
    obtain ⟨row, hrow, hcached, hexpires⟩ := held_eq_some.mp h
    rw [put, hacc] at hrow
    have hset := stored_of_enforceLimit hrow
    rw [Dict.get?_set, Dict.get?_erase] at hset
    by_cases hu : u = url
    · rw [if_pos hu] at hset
      cases hset
      refine .inl ⟨rfl, hu, ?_⟩
      obtain ⟨cached, expires⟩ := w
      cases hcached
      cases hexpires
      rfl
    · rw [if_neg hu, if_neg hu] at hset
      exact .inr ⟨fun _ => hu, held_eq_some.mpr ⟨row, hset, hcached, hexpires⟩⟩

theorem held_invalidate (h : (c.invalidate url).held u = some w) : u ≠ url ∧ c.held u = some w := by
  obtain ⟨row, hrow, heq⟩ := held_eq_some.mp h
  simp only [invalidate, Dict.get?_erase] at hrow
  split at hrow
  · cases hrow
  · next hu => exact ⟨hu, held_eq_some.mpr ⟨row, hrow, heq⟩⟩

theorem accepts_get : (c.get now url).1.accepts = c.accepts := by
  unfold get
  split
  · rfl
  · split
    · rfl
    · rfl

theorem accepts_put : (c.put now url r).accepts = c.accepts := by
  unfold put
  split
  · rfl
  · rfl

theorem defaultTtl_get : (c.get now url).1.defaultTtl = c.defaultTtl := by
  unfold get
  split
  · rfl
  · split
    · rfl
    · rfl

theorem defaultTtl_put : (c.put now url r).defaultTtl = c.defaultTtl := by
  unfold put
  split
  · rfl
  · rfl

theorem ttl_pos (h : c.accepts r = true) : ¬ (ttlOf r.headers c.defaultTtl).le 0 = true := by
  simp only [accepts, Bool.decide_and, Bool.and_eq_true, decide_eq_true_eq] at h
  exact h.2.2.1

def tier : Tier DiskCache where
  get := get
  put := put
  invalidate := invalidate
  clear := clear
  accepts := accepts
  defaultTtl := defaultTtl
  held := held
  hit_iff := hit_iff
  held_get := held_get
  held_put := held_put
  ttl_pos := ttl_pos
  put_refused := put_refused
  held_invalidate := held_invalidate
  held_clear := rfl
  accepts_get := accepts_get
  accepts_put := accepts_put
  accepts_invalidate := rfl

end DiskCache

inductive TierOp
  | put (url : Url) (r : Cached)
  | get (url : Url)
  | invalidate (url : Url)
  | clear
  | tick (now : Clock)

structure TierState (γ : Type) where
  cache : γ
  now : Clock
  last : Url → Option Cached

namespace Tier

variable {γ : Type} (T : Tier γ)

def step (s : TierState γ) : TierOp → Option (TierState γ)
  | .put url r => some { s with
      cache := T.put s.cache s.now url r
      last := fun u => if u = url then some r else s.last u }
  | .get url => some { s with cache := (T.get s.cache s.now url).1 }
  | .invalidate url => some { s with
      cache := T.invalidate s.cache url
      last := fun u => if u = url then none else s.last u }
  | .clear => some { s with cache := T.clear s.cache, last := fun _ => none }
  | .tick now => if s.now.monotonic ≤ now.monotonic then some { s with now := now } else none

def machine (c : γ) (start : Clock) : Machine (TierState γ) TierOp :=
  ⟨⟨T.clear c, start, fun _ => none⟩, T.step⟩

section Hits

variable {T : Tier γ} {c : γ} {now later : Clock} {url u : Url} {r : Cached}

theorem isSome_get : (T.get c now url).2.isSome = true ↔
    ∃ w, T.held c url = some w ∧ w.live now = true := by
  rw [Option.isSome_iff_exists]
  constructor
  · rintro ⟨r, hr⟩
    obtain ⟨w, hw, hlive, -⟩ := T.hit_iff.mp hr
    exact ⟨w, hw, hlive⟩
  · rintro ⟨w, hw, hlive⟩
    exact ⟨w.cached, T.hit_iff.mpr ⟨w, hw, hlive, rfl⟩⟩

theorem hit_of_get (h : (T.get (T.get c now url).1 now u).2.isSome = true) :
    (T.get c now u).2.isSome = true := by
  obtain ⟨w, hw, hlive⟩ := isSome_get.mp h
  exact isSome_get.mpr ⟨w, T.held_get hw, hlive⟩

theorem hit_of_later (hle : now.monotonic ≤ later.monotonic)
    (h : (T.get c later u).2.isSome = true) : (T.get c now u).2.isSome = true := by
  obtain ⟨w, hw, hlive⟩ := isSome_get.mp h
  exact isSome_get.mpr ⟨w, hw, Held.live_of_le hle hlive⟩

theorem hit_of_put (h : (T.get (T.put c now url r) now u).2.isSome = true) :
    T.accepts c r = true ∧ u = url ∧ (T.held (T.put c now url r) url).isSome = true ∨
      (T.accepts c r = true → u ≠ url) ∧ (T.get c now u).2.isSome = true := by
  obtain ⟨w, hw, hlive⟩ := isSome_get.mp h
  rcases T.held_put hw with ⟨hacc, rfl, -⟩ | ⟨hne, hold⟩
  · exact .inl ⟨hacc, rfl, Option.isSome_iff_exists.mpr ⟨w, hw⟩⟩
  · exact .inr ⟨hne, isSome_get.mpr ⟨w, hold, hlive⟩⟩

theorem hit_put_self (h : T.accepts c r = true)
    (hheld : (T.held (T.put c now url r) url).isSome = true) :
    (T.get (T.put c now url r) now url).2.isSome = true := by
  obtain ⟨w, hw⟩ := Option.isSome_iff_exists.mp hheld
  rcases T.held_put hw with ⟨-, -, rfl⟩ | ⟨hne, -⟩
  · exact isSome_get.mpr ⟨_, hw, Held.live_of (T.ttl_pos h)⟩
  · exact absurd rfl (hne h)

end Hits

/-- A lookup returns nothing or what was put last. -/
def Latest (s : TierState γ) : Prop :=
  ∀ url r, (T.get s.cache s.now url).2 = some r → s.last url = some r

/-- A response that is put is accepted, or it finds nothing that is still live. -/
def Replaces (s : TierState γ) : TierOp → Prop
  | .put url r => T.accepts s.cache r = true ∨
      ∀ w, T.held s.cache url = some w → w.live s.now = false
  | _ => True

structure LatestInv (s : TierState γ) : Prop where
  accepted : ∀ url w, T.held s.cache url = some w → T.accepts s.cache w.cached = true
  last : ∀ url w, T.held s.cache url = some w → w.live s.now = true → s.last url = some w.cached

variable {T} {s s' : TierState γ} {op : TierOp}

theorem LatestInv.latest (h : T.LatestInv s) : T.Latest s := by
  intro url r hr
  obtain ⟨w, hw, hlive, rfl⟩ := T.hit_iff.mp hr
  exact h.last url w hw hlive

theorem LatestInv.step (h : T.LatestInv s) (hok : T.Replaces s op)
    (hs : T.step s op = some s') : T.LatestInv s' := by
  cases op with
  | put url r =>
    cases hs
    constructor
    · intro u w hw
      rw [T.accepts_put]
      rcases T.held_put hw with ⟨hacc, rfl, rfl⟩ | ⟨-, hw⟩
      · exact hacc
      · exact h.accepted u w hw
    · intro u w hw hlive
      rcases T.held_put hw with ⟨hacc, rfl, rfl⟩ | ⟨hne, hold⟩
      · exact if_pos rfl
      · by_cases hu : u = url
        · subst hu
          rcases hok with hacc | hdead
          · exact absurd rfl (hne hacc)
          · exact absurd ((hdead w hold).symm.trans hlive) Bool.false_ne_true
        · simp only [hu, if_false]
          exact h.last u w hold hlive
  | get url =>
    cases hs
    constructor
    · intro u w hw
      rw [T.accepts_get]
      exact h.accepted u w (T.held_get hw)
    · intro u w hw hlive
      exact h.last u w (T.held_get hw) hlive
  | invalidate url =>
    cases hs
    constructor
    · intro u w hw
      rw [T.accepts_invalidate]
      exact h.accepted u w (T.held_invalidate hw).2
    · intro u w hw hlive
      obtain ⟨hne, hold⟩ := T.held_invalidate hw
      simp only [hne, if_false]
      exact h.last u w hold hlive
  | clear =>
    cases hs
    constructor
    · intro u w hw
      rw [T.held_clear] at hw
      cases hw
    · intro u w hw
      rw [T.held_clear] at hw
      cases hw
  | tick now =>
    simp only [Tier.step] at hs
    split at hs
    · next hle =>
      cases hs
      exact ⟨h.accepted, fun u w hw hlive => h.last u w hw (Held.live_of_le hle hlive)⟩
    · cases hs

theorem LatestInv.init {c : γ} {start : Clock} : T.LatestInv (T.machine c start).init := by
  constructor
  · intro u w hw
    rw [machine, T.held_clear] at hw
    cases hw
  · intro u w hw
    rw [machine, T.held_clear] at hw
    cases hw

theorem LatestInv.replaces (h : T.LatestInv s) (hs : T.step s op = some s') (hs' : T.Latest s') :
    T.Replaces s op := by
  cases op with
  | put url r =>
    cases hacc : T.accepts s.cache r with
    | true => exact .inl hacc
    | false =>
      right
      intro w hw
      by_contra hlive
      cases hs
      have hget : (T.get (T.put s.cache s.now url r) s.now url).2 = some w.cached := by
        rw [T.put_refused hacc]
        exact T.hit_iff.mpr ⟨w, hw, Bool.eq_true_of_not_eq_false hlive, rfl⟩
      have hlast := hs' url w.cached hget
      simp only [if_true, Option.some.injEq] at hlast
      subst hlast
      exact absurd (hacc.symm.trans (h.accepted url w hw)) Bool.false_ne_true
  | get | invalidate | clear | tick => trivial

/-- Lookups return what was put last as long as no put is refused over a live response, and no
longer. -/
theorem latest_and_iff {c : γ} {start : Clock} (hs : (T.machine c start).Reach T.Replaces s) :
    T.Latest s ∧ ∀ op s', T.step s op = some s' → (T.Latest s' ↔ T.Replaces s op) := by
  have hinv : T.LatestInv s :=
    hs.invariant LatestInv.init fun _ _ _ h hok hstep => h.step hok hstep
  refine ⟨hinv.latest, ?_⟩
  intro op s' hstep
  constructor
  · exact hinv.replaces hstep
  · exact fun hok => (hinv.step hok hstep).latest

instance (s : TierState γ) (op : TierOp) : Decidable (T.Replaces s op) :=
  match op with
  | .put url r =>
    match h : T.held s.cache url with
    | none => isTrue (.inr fun w hw => by rw [h] at hw; cases hw)
    | some w =>
      decidable_of_iff (T.accepts s.cache r = true ∨ w.live s.now = false) (by simp [Replaces, h])
  | .get _ | .invalidate _ | .clear | .tick _ => isTrue trivial

end Tier

/-- Both caches return what was put last for a url, or nothing, as long as no put is refused over a
response that is still live, and no longer. -/
theorem lookup_latest (l1 : ResponseCache) (l2 : DiskCache) (start : Clock) :
    (∀ s, (ResponseCache.tier.machine l1 start).Reach ResponseCache.tier.Replaces s →
      ResponseCache.tier.Latest s ∧ ∀ op s', ResponseCache.tier.step s op = some s' →
        (ResponseCache.tier.Latest s' ↔ ResponseCache.tier.Replaces s op)) ∧
    (∀ s, (DiskCache.tier.machine l2 start).Reach DiskCache.tier.Replaces s →
      DiskCache.tier.Latest s ∧ ∀ op s', DiskCache.tier.step s op = some s' →
        (DiskCache.tier.Latest s' ↔ DiskCache.tier.Replaces s op)) :=
  ⟨fun _ => Tier.latest_and_iff, fun _ => Tier.latest_and_iff⟩

def smallL1 : ResponseCache := ⟨256, .fin 300, 67108864, .empty⟩

def smallL2 : DiskCache := ⟨4294967296, .fin 86400, 2147483648, .empty⟩

def firstVersion : Cached := ⟨200, [49], [("ETag", "1")]⟩

def secondVersion : Cached := ⟨200, [50], [("ETag", "2")]⟩

def unstorable : Cached := ⟨200, [50], [("Cache-Control", "no-store")]⟩

theorem lookup_latest_of_two :
    (∃ s, ResponseCache.tier.Latest s ∧
      (ResponseCache.tier.get s.cache s.now "u").2 = some secondVersion) ∧
    (∃ s, DiskCache.tier.Latest s ∧
      (DiskCache.tier.get s.cache s.now "u").2 = some secondVersion) := by
  constructor
  · have hrun : ∃ s, (ResponseCache.tier.machine smallL1 ⟨0, 0⟩).Reach ResponseCache.tier.Replaces s ∧
        (ResponseCache.tier.get s.cache s.now "u").2 = some secondVersion :=
      Machine.exists_reach_if [.put "u" firstVersion, .tick ⟨1, 1⟩, .put "u" secondVersion]
        (by decide +kernel)
    obtain ⟨s, hs, hget⟩ := hrun
    exact ⟨s, ((lookup_latest smallL1 smallL2 ⟨0, 0⟩).1 s hs).1, hget⟩
  · have hrun : ∃ s, (DiskCache.tier.machine smallL2 ⟨0, 0⟩).Reach DiskCache.tier.Replaces s ∧
        (DiskCache.tier.get s.cache s.now "u").2 = some secondVersion :=
      Machine.exists_reach_if [.put "u" firstVersion, .tick ⟨1, 1⟩, .put "u" secondVersion]
        (by decide +kernel)
    obtain ⟨s, hs, hget⟩ := hrun
    exact ⟨s, ((lookup_latest smallL1 smallL2 ⟨0, 0⟩).2 s hs).1, hget⟩

/-- The second response is not to be stored, and the first one is served on. -/
theorem refused_put_leaves_old :
    (¬ ∀ c start s, (ResponseCache.tier.machine c start).Reachable s →
      ResponseCache.tier.Latest s) ∧
    (¬ ∀ c start s, (DiskCache.tier.machine c start).Reachable s → DiskCache.tier.Latest s) := by
  constructor
  · intro hall
    have hrun : ∃ s, (ResponseCache.tier.machine smallL1 ⟨0, 0⟩).Reachable s ∧
        (ResponseCache.tier.get s.cache s.now "u").2 = some firstVersion ∧
          s.last "u" = some unstorable :=
      Machine.exists_reachable [.put "u" firstVersion, .put "u" unstorable] (by decide +kernel)
    obtain ⟨s, hs, hget, hlast⟩ := hrun
    have hlatest := hall smallL1 ⟨0, 0⟩ s hs "u" firstVersion hget
    rw [hlast] at hlatest
    cases hlatest
  · intro hall
    have hrun : ∃ s, (DiskCache.tier.machine smallL2 ⟨0, 0⟩).Reachable s ∧
        (DiskCache.tier.get s.cache s.now "u").2 = some firstVersion ∧
          s.last "u" = some unstorable :=
      Machine.exists_reachable [.put "u" firstVersion, .put "u" unstorable] (by decide +kernel)
    obtain ⟨s, hs, hget, hlast⟩ := hrun
    have hlatest := hall smallL2 ⟨0, 0⟩ s hs "u" firstVersion hget
    rw [hlast] at hlatest
    cases hlatest

end ProxySplit
