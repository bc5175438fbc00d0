import ProxySplit.CacheTier
import ProxySplit.Lib.Eviction
import ProxySplit.Lib.Machine

namespace ProxySplit.DiskCache

open Lib

def new (maxSize : Int) (defaultTtl : PyFloat) (maxBody : Int) : DiskCache :=
  ⟨maxSize, defaultTtl, maxBody, .empty⟩

/-- The table after the `INSERT OR REPLACE` of `put`. -/
def inserted (c : DiskCache) (now : Clock) (url : Url) (r : Cached) : Dict Url DiskEntry :=
  (c.responses.erase url).set url
    ⟨r, (ttlOf r.headers c.defaultTtl).addTo now.monotonic, now.time, r.body.length⟩

/-- `SELECT SUM(size)`. -/
def totalSize (table : Dict Url DiskEntry) : Int :=
  (table.entries.map fun row => (row.2.size : Int)).sum

def storedSince (table : Dict Url DiskEntry) (x : Url × DiskEntry) : Nat :=
  sizeSince (fun row => row.2.cachedAt) (fun row => row.2.size) table.entries x

/-- The loop of `_enforce_limit` without a bound on its rounds. -/
inductive EvictsTo (maxSize : Int) : Int → Dict Url DiskEntry → Dict Url DiskEntry → Prop
  | fits {total : Int} {table : Dict Url DiskEntry} :
      total ≤ maxSize → EvictsTo maxSize total table table
  | nothing {total : Int} {table : Dict Url DiskEntry} :
      maxSize < total → table.entries = [] → EvictsTo maxSize total table table
  | evict {total : Int} {table table' : Dict Url DiskEntry} {url : Url} {row : DiskEntry} :
      maxSize < total → table.entries.argmin (fun row => row.2.cachedAt) = some (url, row) →
        EvictsTo maxSize (total - row.size) (table.erase url) table' →
          EvictsTo maxSize total table table'

variable {c c' : DiskCache} {now : Clock} {url u : Url} {r : Cached} {row : DiskEntry}
  {maxSize total : Int} {table table' : Dict Url DiskEntry} {rows : Nat}

theorem put_of_accepts (h : c.accepts r = true) : c.put now url r = { c with
    responses := enforceLimit c.maxSize (c.inserted now url r).entries.length
      (totalSize (c.inserted now url r)) (c.inserted now url r) } := by
  rw [put, h]
  rfl

theorem totalSize_eq : totalSize table = (table.entries.map fun row => row.2.size).sum := by
  rw [totalSize]
  induction table.entries with
  | nil => rfl
  | cons row rows ih => rw [List.map_cons, List.sum_cons, ih, List.map_cons, List.sum_cons, Nat.cast_add]

theorem ne_iff_of_mem (h : (url, row) ∈ table.entries) {p : Url × DiskEntry}
    (hp : p ∈ table.entries) : p.1 ≠ url ↔ p ≠ (url, row) :=
  not_congr ⟨fun heq => List.inj_on_of_nodup_map table.nodup hp h heq, congrArg Prod.fst⟩

theorem get_cases (c : DiskCache) (now : Clock) (url : Url) :
    (c.get now url).1 = c ∨ (c.get now url).1 = c.invalidate url := by
  rw [get]
  split
  · exact .inl rfl
  · split
    · exact .inr rfl
    · exact .inl rfl

theorem perm_erase (h : (url, row) ∈ table.entries) :
    table.entries.Perm ((url, row) :: (table.erase url).entries) := by
  rw [List.perm_ext_iff_of_nodup (List.Nodup.of_map _ table.nodup)]
  · intro p
    simp only [Dict.erase, List.mem_cons, List.mem_filter, decide_eq_true_eq]
    constructor
    · intro hp
      by_cases heq : p = (url, row)
      · exact .inl heq
      · exact .inr ⟨hp, (ne_iff_of_mem h hp).mpr heq⟩
    · rintro (rfl | ⟨hp, -⟩)
      · exact h
      · exact hp
  · rw [List.nodup_cons]
    refine ⟨fun hmem => ?_, List.Nodup.of_map _ (table.erase url).nodup⟩
    simp [Dict.erase] at hmem

theorem totalSize_erase (h : (url, row) ∈ table.entries) :
    totalSize (table.erase url) = totalSize table - row.size := by
  have hsum := ((perm_erase h).map fun row => (row.2.size : Int)).sum_eq
  rw [List.map_cons, List.sum_cons] at hsum
  simp only [totalSize, hsum]
  omega

theorem length_erase (h : (url, row) ∈ table.entries) :
    table.entries.length = (table.erase url).entries.length + 1 := (perm_erase h).length_eq

theorem EvictsTo.nil_of_neg (h : EvictsTo maxSize total table table') (hmax : maxSize < 0)
    (htotal : total = totalSize table) : table'.entries = [] := by
  induction h with
  | @fits total table hfits =>
    rw [totalSize_eq] at htotal
    omega
  | nothing _ hnil => exact hnil
  | evict _ hmin _ ih =>
    refine ih ?_
    rw [htotal, totalSize_erase (List.argmin_mem hmin)]

/-- When the rows of a table were stored, each at a time of its own. -/
def Distinct (table : Dict Url DiskEntry) : Prop :=
  (table.entries.map fun row => row.2.cachedAt).Nodup

theorem Distinct.sublist (h : Distinct table) (hsub : table'.entries.Sublist table.entries) :
    Distinct table' := (hsub.map _).nodup h

theorem sublist_enforceLimit :
    (enforceLimit maxSize rows total table).entries.Sublist table.entries := by
  induction rows generalizing total table with
  | zero => exact .refl _
  | succ rows ih =>
    rw [enforceLimit]
    split
    · split
      · exact ih.trans List.filter_sublist
      · exact .refl _
    · exact .refl _

theorem newestFit_enforceLimit (hmax : 0 ≤ maxSize) (hrows : table.entries.length ≤ rows)
    (htotal : total = totalSize table) (hdistinct : Distinct table) :
    NewestFit (fun row => row.2.cachedAt) (fun row => row.2.size) maxSize table.entries
      (enforceLimit maxSize rows total table).entries := by
  subst htotal
  induction rows generalizing table with
  | zero =>
    have hnil : table.entries = [] := List.eq_nil_of_length_eq_zero (Nat.le_zero.mp hrows)
    rw [enforceLimit, hnil]
    exact .self hmax
  | succ rows ih =>
    rw [enforceLimit]
    split
    · next hfull =>
      split
      · next url row hmin =>
        have hmem : (url, row) ∈ table.entries := List.argmin_mem hmin
        have hlength := length_erase hmem
        rw [← totalSize_erase hmem]
        refine .of_evict (p := fun p => p.1 ≠ url) (.of_map _ table.nodup) hmem ?_ ?_ ?_ ?_
        · exact fun p hp => (decide_eq_true_iff ..).trans (ne_iff_of_mem hmem hp)
        · intro p hp hne
          have hle := List.le_of_mem_argmin (f := fun row : Url × DiskEntry => row.2.cachedAt) hp hmin
          refine lt_of_le_of_ne hle fun heq => hne ?_
          exact List.inj_on_of_nodup_map hdistinct hp hmem heq.symm
        · rw [← totalSize_eq]
          exact hfull
        · have hrest : (table.erase url).entries.length ≤ rows := by omega
          exact ih hrest (hdistinct.sublist List.filter_sublist)
      · next hnone =>
        rw [List.argmin_eq_none.mp hnone]
        exact .self hmax
    · next hfits =>
      refine .self ?_
      rw [← totalSize_eq]
      exact not_lt.mp hfits

theorem evictsTo_enforceLimit (h : table.entries.length ≤ rows) :
    EvictsTo maxSize total table (enforceLimit maxSize rows total table) := by
  induction rows generalizing total table with
  | zero =>
    have hnil : table.entries = [] := List.eq_nil_of_length_eq_zero (Nat.le_zero.mp h)
    rcases lt_or_ge maxSize total with hfull | hfits
    · exact .nothing hfull hnil
    · exact .fits hfits
  | succ rows ih =>
    rw [enforceLimit]
    split
    · next hfull =>
      split
      · next url row hmin =>
        refine .evict hfull hmin (ih ?_)
        have hlength := length_erase (List.argmin_mem hmin)
        omega
      · next hnone => exact .nothing hfull (List.argmin_eq_none.mp hnone)
    · next hfits => exact .fits (not_lt.mp hfits)

inductive Op
  | get (now : Clock) (url : Url)
  | put (now : Clock) (url : Url) (r : Cached)
  | invalidate (url : Url)
  | clear

def act (c : DiskCache) : Op → Option DiskCache
  | .get now url => some (c.get now url).1
  | .put now url r => some (c.put now url r)
  | .invalidate url => some (c.invalidate url)
  | .clear => some c.clear

def machine (c₀ : DiskCache) : Machine DiskCache Op := ⟨c₀, act⟩

/-- A row is stored at a time at which no other one was stored. -/
def FreshTime (c : DiskCache) : Op → Prop
  | .put now url r => c.accepts r = true →
      ∀ row ∈ c.responses.entries, row.1 ≠ url → row.2.cachedAt ≠ now.time
  | _ => True

instance (c : DiskCache) : (op : Op) → Decidable (FreshTime c op)
  | .put now url r => inferInstanceAs (Decidable (c.accepts r = true →
      ∀ row ∈ c.responses.entries, row.1 ≠ url → row.2.cachedAt ≠ now.time))
  | .get .. | .invalidate _ | .clear => inferInstanceAs (Decidable True)

/-- When each url was last stored or hit, and the time of the last call. -/
structure UseTimes where
  lastUse : Url → ℚ
  time : ℚ

def UseTimes.after (u : UseTimes) (c : DiskCache) (op : Op) (_ : DiskCache) : UseTimes :=
  match op with
  | .get now url =>
    ⟨if (c.get now url).2.isSome then Function.update u.lastUse url now.time else u.lastUse, now.time⟩
  | .put now url r =>
    ⟨if c.accepts r then Function.update u.lastUse url now.time else u.lastUse, now.time⟩
  | .invalidate _ | .clear => u

def recorded (maxSize : Int) (defaultTtl : PyFloat) (maxBody : Int) (start : ℚ) :
    Machine (DiskCache × UseTimes) Op :=
  (machine (new maxSize defaultTtl maxBody)).observed ⟨fun _ => start, start⟩ UseTimes.after

def Increasing (p : DiskCache × UseTimes) : Op → Prop
  | .get now _ | .put now _ _ => p.2.time < now.time
  | .invalidate _ | .clear => True

instance (p : DiskCache × UseTimes) : (op : Op) → Decidable (Increasing p op)
  | .get now _ | .put now _ _ => inferInstanceAs (Decidable (p.2.time < now.time))
  | .invalidate _ | .clear => inferInstanceAs (Decidable True)

/-- What a put evicts was used before all that stays. -/
def EvictsLeastRecent (c : DiskCache) (u : UseTimes) (now : Clock) (url : Url) (r : Cached) : Prop :=
  let used := (u.after c (.put now url r) (c.put now url r)).lastUse
  ∀ x ∈ (c.inserted now url r).entries, x ∉ (c.put now url r).responses.entries →
    ∀ y ∈ (c.put now url r).responses.entries, used x.1 < used y.1

/-- Of two rows that were used in another order than they were stored in, both fit with all that was stored
after them, or neither. -/
def CutInOrder (c : DiskCache) (u : UseTimes) (now : Clock) (url : Url) (r : Cached) : Prop :=
  let used := (u.after c (.put now url r) (c.put now url r)).lastUse
  ∀ x ∈ (c.inserted now url r).entries, ∀ y ∈ (c.inserted now url r).entries,
    x.2.cachedAt < y.2.cachedAt → used y.1 ≤ used x.1 →
      storedSince (c.inserted now url r) x ≤ c.maxSize ∨
        c.maxSize < storedSince (c.inserted now url r) y

instance (c : DiskCache) (u : UseTimes) (now : Clock) (url : Url) (r : Cached) :
    Decidable (EvictsLeastRecent c u now url r) :=
  inferInstanceAs (Decidable (∀ x ∈ (c.inserted now url r).entries,
    x ∉ (c.put now url r).responses.entries → ∀ y ∈ (c.put now url r).responses.entries,
      (u.after c (.put now url r) (c.put now url r)).lastUse x.1 <
        (u.after c (.put now url r) (c.put now url r)).lastUse y.1))

instance (c : DiskCache) (u : UseTimes) (now : Clock) (url : Url) (r : Cached) :
    Decidable (CutInOrder c u now url r) :=
  inferInstanceAs (Decidable (∀ x ∈ (c.inserted now url r).entries,
    ∀ y ∈ (c.inserted now url r).entries, x.2.cachedAt < y.2.cachedAt →
      (u.after c (.put now url r) (c.put now url r)).lastUse y.1 ≤
        (u.after c (.put now url r) (c.put now url r)).lastUse x.1 →
          storedSince (c.inserted now url r) x ≤ c.maxSize ∨
            c.maxSize < storedSince (c.inserted now url r) y))

section Runs

variable {c₀ : DiskCache} {defaultTtl : PyFloat} {maxBody : Int} {start : ℚ}

theorem Distinct.inserted (h : Distinct c.responses) (hacc : c.accepts r = true)
    (hfresh : FreshTime c (.put now url r)) : Distinct (c.inserted now url r) := by
  rw [Distinct, DiskCache.inserted, Dict.entries_erase_set, List.map_append, List.nodup_append]
  refine ⟨h.sublist List.filter_sublist, List.nodup_singleton _, ?_⟩
  rintro _ ha _ hb rfl
  obtain ⟨row, hrow, rfl⟩ := List.mem_map.mp ha
  obtain ⟨hmem, hne⟩ := List.mem_filter.mp hrow
  exact hfresh hacc row hmem (of_decide_eq_true hne) (List.mem_singleton.mp hb)

theorem Distinct.act {op : Op} (h : Distinct c.responses) (hfresh : FreshTime c op)
    (hstep : act c op = some c') : Distinct c'.responses := by
  cases op with
  | get now url =>
    cases hstep
    rcases get_cases c now url with hc | hc
    · rw [hc]; exact h
    · rw [hc]; exact h.sublist List.filter_sublist
  | put now url r =>
    cases hstep
    cases hacc : c.accepts r with
    | false => rw [put_refused hacc]; exact h
    | true =>
      rw [put_of_accepts hacc]
      exact (h.inserted hacc hfresh).sublist sublist_enforceLimit
  | invalidate url => cases hstep; exact h.sublist List.filter_sublist
  | clear => cases hstep; exact List.nodup_nil

theorem distinct_of_reach (h₀ : Distinct c₀.responses)
    (h : (machine c₀).Reach FreshTime c) : Distinct c.responses :=
  h.invariant (I := fun c => Distinct c.responses) h₀ fun _ _ _ hI hok hstep => hI.act hok hstep

/-- Every put that is accepted leaves the newest rows that fit, as many as there can be. -/
theorem newest_kept (h₀ : Distinct c₀.responses) (h : (machine c₀).Reach FreshTime c)
    (hfresh : FreshTime c (.put now url r)) (hacc : c.accepts r = true) :
    (0 ≤ c.maxSize → totalSize (c.put now url r).responses ≤ c.maxSize ∧
      NewestFit (fun row => row.2.cachedAt) (fun row => row.2.size) c.maxSize
        (c.inserted now url r).entries (c.put now url r).responses.entries) ∧
    (c.maxSize < 0 → (c.put now url r).responses.entries = []) ∧
    EvictsTo c.maxSize (totalSize (c.inserted now url r)) (c.inserted now url r)
      (c.put now url r).responses ∧
    ∀ total table, ∃ table', EvictsTo c.maxSize total table table' := by
  have hdistinct := (distinct_of_reach h₀ h).inserted hacc hfresh
  rw [put_of_accepts hacc]
  refine ⟨fun hmax => ?_, fun hmax => ?_, evictsTo_enforceLimit le_rfl,
    fun total table => ⟨_, evictsTo_enforceLimit (le_refl table.entries.length)⟩⟩
  · have hfit := newestFit_enforceLimit hmax le_rfl rfl hdistinct
    exact ⟨totalSize_eq.trans_le hfit.fits, hfit⟩
  · exact (evictsTo_enforceLimit le_rfl).nil_of_neg hmax rfl

theorem newest_kept_of_three : ∃ c, (machine (new 2 (.fin 60) 1024)).Reach FreshTime c ∧
    NewestFit (fun row => row.2.cachedAt) (fun row => row.2.size) 2
      (c.inserted ⟨3, 3⟩ "http://h/c" ⟨200, [0], []⟩).entries
      (c.put ⟨3, 3⟩ "http://h/c" ⟨200, [0], []⟩).responses.entries := by
  have hrun : ∃ c, (machine (new 2 (.fin 60) 1024)).Reach FreshTime c ∧
      FreshTime c (.put ⟨3, 3⟩ "http://h/c" ⟨200, [0], []⟩) ∧
        c.accepts ⟨200, [0], []⟩ = true ∧ c.maxSize = 2 :=
    Machine.exists_reach_if
      [.put ⟨1, 1⟩ "http://h/a" ⟨200, [0], []⟩, .put ⟨2, 2⟩ "http://h/b" ⟨200, [0], []⟩]
      (by decide +kernel)
  obtain ⟨c, hreach, hfresh, hacc, hmax⟩ := hrun
  have hempty : Distinct (new 2 (.fin 60) 1024).responses := List.nodup_nil
  have hkept := (newest_kept hempty hreach hfresh hacc).1 (by rw [hmax]; decide)
  rw [hmax] at hkept
  exact ⟨c, hreach, hkept.2⟩

/-- Not even the empty table fits below zero. -/
theorem neg_max_exceeded : (new (-1) (.fin 60) 1024).accepts ⟨200, [0], []⟩ = true ∧
    ¬ totalSize ((new (-1) (.fin 60) 1024).put ⟨1, 1⟩ "http://h/a" ⟨200, [0], []⟩).responses ≤ -1 := by
  decide +kernel

def Dated (p : DiskCache × UseTimes) : Prop :=
  Distinct p.1.responses ∧ ∀ row ∈ p.1.responses.entries, row.2.cachedAt ≤ p.2.time

theorem Dated.freshTime {u : UseTimes} (h : Dated (c, u)) (hnow : u.time < now.time) :
    FreshTime c (.put now url r) := fun _ row hrow _ => ((h.2 row hrow).trans_lt hnow).ne

theorem mem_act {op : Op} {stored : Url × DiskEntry} (hstep : act c op = some c')
    (h : stored ∈ c'.responses.entries) :
    stored ∈ c.responses.entries ∨ ∃ now url r, op = .put now url r ∧ stored.2.cachedAt = now.time := by
  cases op with
  | get now url =>
    cases hstep
    rcases get_cases c now url with hc | hc
    · rw [hc] at h
      exact .inl h
    · rw [hc] at h
      exact .inl (List.mem_filter.mp h).1
  | put now url r =>
    cases hstep
    cases hacc : c.accepts r with
    | false =>
      rw [put_refused hacc] at h
      exact .inl h
    | true =>
      rw [put_of_accepts hacc] at h
      have hins := sublist_enforceLimit.subset h
      rw [inserted, Dict.entries_erase_set] at hins
      rcases List.mem_append.mp hins with hins | hins
      · exact .inl (List.mem_filter.mp hins).1
      · rw [List.mem_singleton.mp hins]
        exact .inr ⟨now, url, r, rfl, rfl⟩
  | invalidate url =>
    cases hstep
    exact .inl (List.mem_filter.mp h).1
  | clear =>
    cases hstep
    cases h

theorem Dated.step {p p' : DiskCache × UseTimes} {op : Op} (h : Dated p) (hop : Increasing p op)
    (hstep : (recorded maxSize defaultTtl maxBody start).step p op = some p') : Dated p' := by
  obtain ⟨c, u⟩ := p
  obtain ⟨c', u'⟩ := p'
  obtain ⟨hact, hu⟩ : act c op = some c' ∧ u' = u.after c op c' := Machine.step_of_observed hstep
  subst hu
  have htime : u.time ≤ (u.after c op c').time := by
    cases op with
    | get now url | put now url r => exact le_of_lt hop
    | invalidate url | clear => exact le_rfl
  refine ⟨h.1.act ?_ hact, fun row hrow => ?_⟩
  · cases op with
    | put now url r => exact h.freshTime hop
    | _ => trivial
  · rcases mem_act hact hrow with hold | ⟨now, url, r, rfl, hnew⟩
    · exact (h.2 row hold).trans htime
    · exact hnew.le

theorem dated_of_reach {p : DiskCache × UseTimes}
    (h : (recorded maxSize defaultTtl maxBody start).Reach Increasing p) : Dated p := by
  refine h.invariant (I := Dated) ?_ fun _ _ _ hI hok hstep => hI.step hok hstep
  refine ⟨List.nodup_nil, fun row hrow => ?_⟩
  cases hrow

/-- The least recently used rows are evicted exactly when the cut does not fall between two rows that were
used in another order than they were stored in. -/
theorem evictsLeastRecent_iff {u : UseTimes}
    (h : (recorded maxSize defaultTtl maxBody start).Reach Increasing (c, u))
    (hnow : u.time < now.time) (hacc : c.accepts r = true) :
    EvictsLeastRecent c u now url r ↔ CutInOrder c u now url r := by
  have hdated := dated_of_reach h
  have hdistinct : Distinct (c.inserted now url r) := hdated.1.inserted hacc (hdated.freshTime hnow)
  have hnodup : (c.inserted now url r).entries.Nodup := .of_map _ (c.inserted now url r).nodup
  simp only [EvictsLeastRecent, CutInOrder]
  generalize (u.after c (.put now url r) (c.put now url r)).lastUse = used
  rw [put_of_accepts hacc]
  rcases lt_or_ge c.maxSize 0 with hneg | hmax
  · rw [(evictsTo_enforceLimit le_rfl).nil_of_neg hneg rfl]
    constructor
    · intro _ x _ y _ _ _
      exact .inr (by omega)
    · intro _ x _ _ y hy
      cases hy
  · have hfit := newestFit_enforceLimit hmax le_rfl rfl hdistinct
    constructor
    · intro hlru x hx y hy _ hused
      by_contra hcut
      rw [not_or, not_le, not_lt] at hcut
      have hout := (hfit.mem_iff hnodup hx).not.mpr (not_le.mpr hcut.1)
      exact absurd (hlru x hx hout y ((hfit.mem_iff hnodup hy).mpr hcut.2)) (not_lt.mpr hused)
    · intro hcut x hx hout y hkept
      have hy := hfit.run.1.subset hkept
      have hbig := not_le.mp ((hfit.mem_iff hnodup hx).not.mp hout)
      have hsmall := (hfit.mem_iff hnodup hy).mp hkept
      by_contra hused
      have hlt : x.2.cachedAt < y.2.cachedAt := by
        by_contra hle
        exact hout (hfit.run.2 y hkept x hx (not_lt.mp hle))
      rcases hcut x hx y hy hlt (not_lt.mp hused) with hboth | hneither
      · exact absurd hboth (not_le.mpr hbig)
      · exact absurd hsmall (not_le.mpr hneither)

theorem evictsLeastRecent_of_puts : ∃ c u,
    (recorded 2 (.fin 60) 1024 0).Reach Increasing (c, u) ∧
      EvictsLeastRecent c u ⟨3, 3⟩ "http://h/c" ⟨200, [0], []⟩ := by
  have hrun : ∃ p, (recorded 2 (.fin 60) 1024 0).Reach Increasing p ∧
      p.2.time < 3 ∧ p.1.accepts ⟨200, [0], []⟩ = true ∧
        CutInOrder p.1 p.2 ⟨3, 3⟩ "http://h/c" ⟨200, [0], []⟩ :=
    Machine.exists_reach_if
      [.put ⟨1, 1⟩ "http://h/a" ⟨200, [0], []⟩, .put ⟨2, 2⟩ "http://h/b" ⟨200, [0], []⟩]
      (by decide +kernel)
  obtain ⟨⟨c, u⟩, hreach, htime, hacc, hcut⟩ := hrun
  exact ⟨c, u, hreach, (evictsLeastRecent_iff hreach htime hacc).mpr hcut⟩

/-- The row that was hit last goes, since another one was stored after it. -/
theorem not_evictsLeastRecent_of_hit : ∃ c u,
    (recorded 2 (.fin 60) 1024 0).Reach Increasing (c, u) ∧ u.time < 4 ∧
      c.accepts ⟨200, [0], []⟩ = true ∧
        ¬ EvictsLeastRecent c u ⟨4, 4⟩ "http://h/c" ⟨200, [0], []⟩ := by
  have hrun : ∃ p, (recorded 2 (.fin 60) 1024 0).Reach Increasing p ∧
      p.2.time < 4 ∧ p.1.accepts ⟨200, [0], []⟩ = true ∧
        ¬ EvictsLeastRecent p.1 p.2 ⟨4, 4⟩ "http://h/c" ⟨200, [0], []⟩ :=
    Machine.exists_reach_if
      [.put ⟨1, 1⟩ "http://h/a" ⟨200, [0], []⟩, .put ⟨2, 2⟩ "http://h/b" ⟨200, [0], []⟩,
        .get ⟨3, 3⟩ "http://h/a"]
      (by decide +kernel)
  obtain ⟨⟨c, u⟩, hreach, hnot⟩ := hrun
  exact ⟨c, u, hreach, hnot⟩

end Runs

end ProxySplit.DiskCache
