import ProxySplit.CacheTier
import ProxySplit.Handlers.CacheRuns

namespace ProxySplit

open Lib Prog

def older : Option Nat → Option Nat → Bool
  | some m, some n => m < n
  | _, _ => false

def newest : Option Nat → Option Nat → Option Nat
  | some m, some n => some (max m n)
  | some m, none => some m
  | none, n => n

theorem older_self {a : Option Nat} : older a a = false := by
  cases a with
  | none => rfl
  | some a => simp [older]

theorem older_newest {a b c : Option Nat} : older a (newest b c) = (older a b || older a c) := by
  cases a with
  | none => rfl
  | some a =>
    cases b with
    | none => rfl
    | some b =>
      cases c with
      | none => simp [older, newest]
      | some c => simp [older, newest]

def fetchesBody : RequestEffect → Bool
  | .fetch .whole (.http _) | .fetch .revalidate (.http _) | .gather .. => true
  | _ => false

def answersRevalidated : Request Reply → Bool
  | .pure (.response r) => ("X-Cache", "REVALIDATED") ∈ r.headers
  | _ => false

structure NextPut where
  url : Url
  response : Cached
  revalidates : Bool

def Flight.nextPut (f : Flight) : Option NextPut :=
  match f.prog with
  | .perform (.cachePut url r) k => some ⟨url, r, answersRevalidated (k ())⟩
  | _ => none

/-- The handler over its caches, where the fetches of bodies are numbered: the fetch that the body of
each flight, of each scheduled write and of what the caches hold for a url comes from, and the newest one
that a revalidation was answered with. -/
structure Versioned where
  sys : CacheSystem
  fetches : Nat
  flights : Nat → Option Nat
  writes : List (Option Nat)
  l1 : Url → Option Nat
  l2 : Url → Option Nat
  revalidated : Url → Option Nat

namespace Versioned

def set {κ : Type} [DecidableEq κ] (f : κ → Option Nat) (k : κ) (n : Option Nat) : κ → Option Nat :=
  fun k' => if k' = k then n else f k'

def l1After (v : Versioned) (i : Nat) (p : NextPut) : Url → Option Nat :=
  if v.sys.l1.accepts p.response then set v.l1 p.url (v.flights i) else v.l1

def revalidatedAfter (v : Versioned) (i : Nat) (p : NextPut) : Url → Option Nat :=
  if p.revalidates then set v.revalidated p.url (newest (v.revalidated p.url) (v.flights i))
  else v.revalidated

def noteStore (v : Versioned) (i : Nat) (f : Flight) (sys : CacheSystem) : Versioned :=
  match f.prog with
  | .perform (.cachePut url r) k =>
    let put : NextPut := ⟨url, r, answersRevalidated (k ())⟩
    { v with sys := sys, l1 := v.l1After i put, revalidated := v.revalidatedAfter i put }
  | .perform (.diskGet url) _ => { v with
      sys := sys
      flights := if v.sys.l2.any fun disk => (disk.get v.sys.now url).2.isSome then
        set v.flights i (v.l2 url) else v.flights }
  | .perform (.diskPut _ _) _ => { v with
      sys := sys
      writes := v.writes ++ (v.sys.l2.map fun _ => v.flights i).toList }
  | _ => { v with sys := sys }

def l2After (v : Versioned) (n : Nat) (w : DiskWrite) : Url → Option Nat :=
  if v.sys.l2.any fun disk => disk.accepts w.response then set v.l2 w.url v.writes[n]?.join else v.l2

def note (v : Versioned) (l : CacheLabel) (sys : CacheSystem) : Versioned :=
  match l with
  | .arrive .. | .tick _ => { v with sys := sys }
  | .answer i ev =>
    if fetchesBody ev.1 then { v with
      sys := sys
      fetches := v.fetches + 1
      flights := set v.flights i (some (v.fetches + 1)) }
    else { v with sys := sys }
  | .store i => (v.sys.flights[i]?.map fun f => v.noteStore i f sys).getD v
  | .write n => { v with
      sys := sys
      writes := v.writes.eraseIdx n
      l2 := (v.sys.writes[n]?.map (v.l2After n)).getD v.l2 }

def Ticks (v : Versioned) : CacheLabel → Bool
  | .tick now => v.sys.now.monotonic ≤ now.monotonic
  | _ => true

def step (cfg : RequestConfig) (v : Versioned) (l : CacheLabel) : Option Versioned :=
  if v.Ticks l then (v.sys.step (fun _ _ => True) cfg l).map (v.note l) else none

def machine (cfg : RequestConfig) (l1 : ResponseCache) (l2 : Option DiskCache) (start : Clock) :
    Machine Versioned CacheLabel where
  init :=
    { sys := ⟨l1, l2, start, [], []⟩
      fetches := 0
      flights := fun _ => none
      writes := []
      l1 := fun _ => some 0
      l2 := fun _ => some 0
      revalidated := fun _ => none }
  step := step cfg

/-- No hit in either cache is on a body that was fetched before one that a revalidation was answered
with. -/
structure ReadsForward (v : Versioned) : Prop where
  l1 : ∀ url, (v.sys.l1.get v.sys.now url).2.isSome → older (v.l1 url) (v.revalidated url) = false
  l2 : ∀ disk url, v.sys.l2 = some disk → (disk.get v.sys.now url).2.isSome →
    older (v.l2 url) (v.revalidated url) = false

/-- What is put is not older than what was answered, and a revalidation is answered when nothing older
than its body is left in the caches. -/
def PutsForward (v : Versioned) : CacheLabel → Prop
  | .store i => ∀ f ∈ v.sys.flights[i]?, ∀ p ∈ f.nextPut,
      (v.sys.l1.accepts p.response → older (v.flights i) (v.revalidated p.url) = false) ∧
      (p.revalidates →
        (v.sys.l1.accepts p.response = false → (v.sys.l1.get v.sys.now p.url).2.isSome →
          older (v.l1 p.url) (v.flights i) = false) ∧
        ∀ disk ∈ v.sys.l2, (disk.get v.sys.now p.url).2.isSome →
          older (v.l2 p.url) (v.flights i) = false)
  | .write n => ∀ w ∈ v.sys.writes[n]?, ∀ disk ∈ v.sys.l2, disk.accepts w.response →
      ((disk.put v.sys.now w.url w.response).held w.url).isSome →
        older v.writes[n]?.join (v.revalidated w.url) = false
  | _ => True

instance (v : Versioned) (l : CacheLabel) : Decidable (v.PutsForward l) :=
  match l with
  | .store _ => inferInstanceAs (Decidable (∀ f ∈ _, ∀ p ∈ _, _))
  | .write _ => inferInstanceAs (Decidable (∀ w ∈ _, ∀ disk ∈ _, _))
  | .arrive .. | .answer .. | .tick _ => isTrue trivial

section Step

variable {cfg : RequestConfig} {v v' : Versioned} {sys : CacheSystem} {l : CacheLabel} {i : Nat}
  {f : Flight}

theorem set_self {κ : Type} [DecidableEq κ] {g : κ → Option Nat} {k : κ} {n : Option Nat} :
    set g k n k = n := if_pos rfl

theorem set_ne {κ : Type} [DecidableEq κ] {g : κ → Option Nat} {k k' : κ} {n : Option Nat}
    (h : k' ≠ k) : set g k n k' = g k' := if_neg h

theorem older_revalidatedAfter {p : NextPut} {n : Option Nat} {u : Url} :
    older n (v.revalidatedAfter i p u) = false ↔ older n (v.revalidated u) = false ∧
      (u = p.url → p.revalidates = true → older n (v.flights i) = false) := by
  unfold revalidatedAfter
  split
  · next hrev =>
    by_cases hu : u = p.url
    · subst hu
      simp [set_self, older_newest, hrev]
    · simp [set_ne hu, hu]
  · next hrev => simp [hrev]

theorem l1After_accepted {p : NextPut} (h : v.sys.l1.accepts p.response = true) :
    v.l1After i p p.url = v.flights i := by
  rw [l1After, if_pos h, set_self]

theorem l1After_kept {p : NextPut} {u : Url} (h : v.sys.l1.accepts p.response = true → u ≠ p.url) :
    v.l1After i p u = v.l1 u := by
  unfold l1After
  split
  · next hacc => exact set_ne (h hacc)
  · rfl

theorem l2After_accepted {n : Nat} {w : DiskWrite} {disk : DiskCache} (hdisk : v.sys.l2 = some disk)
    (h : disk.accepts w.response = true) : v.l2After n w w.url = v.writes[n]?.join := by
  rw [l2After, if_pos (by rw [hdisk]; exact h), set_self]

theorem l2After_kept {n : Nat} {w : DiskWrite} {disk : DiskCache} {u : Url}
    (hdisk : v.sys.l2 = some disk) (h : disk.accepts w.response = true → u ≠ w.url) :
    v.l2After n w u = v.l2 u := by
  unfold l2After
  rw [hdisk]
  split
  · next hacc => exact set_ne (h hacc)
  · rfl

theorem mem_nextPut {url : Url} {r : Cached} {k : Unit → Request Reply}
    (h : f.prog = .perform (.cachePut url r) k) :
    ⟨url, r, answersRevalidated (k ())⟩ ∈ f.nextPut := by
  rw [Flight.nextPut, h]
  rfl

theorem ReadsForward.put (h : v.ReadsForward) {p : NextPut}
    (hnew : v.sys.l1.accepts p.response = true → older (v.flights i) (v.revalidated p.url) = false)
    (hrev : p.revalidates = true →
      (v.sys.l1.accepts p.response = false → (v.sys.l1.get v.sys.now p.url).2.isSome = true →
        older (v.l1 p.url) (v.flights i) = false) ∧
      ∀ disk ∈ v.sys.l2, (disk.get v.sys.now p.url).2.isSome = true →
        older (v.l2 p.url) (v.flights i) = false) :
    (∀ u, ((v.sys.l1.put v.sys.now p.url p.response).get v.sys.now u).2.isSome = true →
      older (v.l1After i p u) (v.revalidatedAfter i p u) = false) ∧
    ∀ disk u, v.sys.l2 = some disk → (disk.get v.sys.now u).2.isSome = true →
      older (v.l2 u) (v.revalidatedAfter i p u) = false := by
  constructor
  · intro u hu
    rw [older_revalidatedAfter]
    rcases Tier.hit_of_put (T := ResponseCache.tier) hu with ⟨hacc, rfl, -⟩ | ⟨hne, hold⟩
    · rw [l1After_accepted hacc]
      exact ⟨hnew hacc, fun _ _ => older_self⟩
    · rw [l1After_kept hne]
      refine ⟨h.l1 u hold, ?_⟩
      rintro rfl hrevalidates
      refine (hrev hrevalidates).1 ?_ hold
      exact Bool.eq_false_of_not_eq_true fun hacc => hne hacc rfl
  · intro disk u hdisk hu
    rw [older_revalidatedAfter]
    refine ⟨h.l2 disk u hdisk hu, ?_⟩
    rintro rfl hrevalidates
    exact (hrev hrevalidates).2 disk hdisk hu

theorem ReadsForward.store (h : v.ReadsForward) (hi : v.sys.flights[i]? = some f)
    (hok : v.PutsForward (.store i)) (hs : v.sys.store (fun _ _ => True) i f = some sys) :
    (v.noteStore i f sys).ReadsForward := by
  unfold CacheSystem.store at hs
  unfold noteStore
  split at hs
  · next url k hprog =>
    cases hs
    rw [hprog]
    exact ⟨fun u hu => h.l1 u (Tier.hit_of_get (T := ResponseCache.tier) hu), h.l2⟩
  · next url k hprog =>
    cases hs
    rw [hprog]
    exact ⟨h.l1, h.l2⟩
  · next url r k hprog =>
    cases hs
    rw [hprog]
    obtain ⟨hnew, hrev⟩ := hok f hi _ (mem_nextPut hprog)
    obtain ⟨hl1, hl2⟩ := h.put hnew hrev
    exact ⟨hl1, hl2⟩
  · next url k hprog =>
    rw [hprog]
    split at hs
    · cases hs
      exact ⟨h.l1, h.l2⟩
    · next disk hdisk =>
      cases hs
      refine ⟨h.l1, ?_⟩
      intro disk' u hdisk' hu
      cases hdisk'
      exact h.l2 disk u hdisk (Tier.hit_of_get (T := DiskCache.tier) hu)
  · next url r k hprog =>
    cases hs
    rw [hprog]
    exact ⟨h.l1, h.l2⟩
  · cases hs

theorem step_cases (hs : step cfg v l = some v') : v.Ticks l = true ∧
    ∃ sys, v.sys.step (fun _ _ => True) cfg l = some sys ∧ v' = v.note l sys := by
  unfold step at hs
  split at hs
  · next hticks =>
    obtain ⟨sys, hsys, rfl⟩ := Option.map_eq_some_iff.mp hs
    exact ⟨hticks, sys, hsys, rfl⟩
  · cases hs

theorem ReadsForward.step (h : v.ReadsForward) (hok : v.PutsForward l)
    (hs : step cfg v l = some v') : v'.ReadsForward := by
  obtain ⟨hticks, sys, hsys, rfl⟩ := step_cases hs
  cases l with
  | arrive req rid sizer body =>
    cases hsys
    exact ⟨h.l1, h.l2⟩
  | answer i ev =>
    obtain ⟨f, -, hf⟩ := Option.bind_eq_some_iff.mp hsys
    obtain ⟨f', -, rfl⟩ := Option.map_eq_some_iff.mp hf
    unfold note
    dsimp only
    split
    · exact ⟨h.l1, h.l2⟩
    · exact ⟨h.l1, h.l2⟩
  | store i =>
    obtain ⟨f, hi, hstore⟩ := Option.bind_eq_some_iff.mp hsys
    simp only [note, hi, Option.map_some, Option.getD_some]
    exact h.store hi hok hstore
  | write n =>
    obtain ⟨w, hw, hwrite⟩ := Option.bind_eq_some_iff.mp hsys
    obtain ⟨disk, hdisk, rfl⟩ := Option.map_eq_some_iff.mp hwrite
    simp only [note, hw, Option.map_some, Option.getD_some]
    refine ⟨h.l1, ?_⟩
    intro disk' u hdisk' hu
    cases hdisk'
    change older (v.l2After n w u) (v.revalidated u) = false
    rcases Tier.hit_of_put (T := DiskCache.tier) hu with ⟨hacc, rfl, hheld⟩ | ⟨hne, hold⟩
    · rw [l2After_accepted hdisk hacc]
      exact hok w hw disk hdisk hacc hheld
    · rw [l2After_kept hdisk hne]
      exact h.l2 disk u hdisk hold
  | tick now =>
    cases hsys
    have hle : v.sys.now.monotonic ≤ now.monotonic := of_decide_eq_true hticks
    constructor
    · exact fun u hu => h.l1 u (Tier.hit_of_later (T := ResponseCache.tier) hle hu)
    · exact fun disk u hdisk hu => h.l2 disk u hdisk (Tier.hit_of_later (T := DiskCache.tier) hle hu)

theorem prog_of_mem_nextPut {p : NextPut} (h : p ∈ f.nextPut) :
    ∃ k, f.prog = .perform (.cachePut p.url p.response) k ∧
      p.revalidates = answersRevalidated (k ()) := by
  rw [Flight.nextPut, Option.mem_def] at h
  split at h
  · next url r k hprog =>
    cases h
    exact ⟨k, hprog, rfl⟩
  · cases h

/-- What is put although it is older, and what is left although it is older, is there to be hit. -/
theorem ReadsForward.putsForward (hs : Versioned.step cfg v l = some v') (h : v'.ReadsForward) :
    v.PutsForward l := by
  obtain ⟨-, sys, hsys, rfl⟩ := step_cases hs
  cases l with
  | store i =>
    intro f hi p hp
    obtain ⟨k, hprog, hrev⟩ := prog_of_mem_nextPut hp
    obtain ⟨f', hi', hstore⟩ := Option.bind_eq_some_iff.mp hsys
    obtain rfl := Option.some.inj ((Option.mem_def.mp hi).symm.trans hi')
    rw [CacheSystem.store, hprog] at hstore
    cases hstore
    simp only [note, hi', Option.map_some, Option.getD_some, noteStore, hprog, ← hrev] at h
    have hl1 : ∀ u, ((v.sys.l1.put v.sys.now p.url p.response).get v.sys.now u).2.isSome = true →
        older (v.l1After i p u) (v.revalidatedAfter i p u) = false := h.l1
    have hl2 : ∀ disk u, v.sys.l2 = some disk → (disk.get v.sys.now u).2.isSome = true →
        older (v.l2 u) (v.revalidatedAfter i p u) = false := h.l2
    refine ⟨fun hacc => ?_, fun hrevalidates => ⟨fun hrefused hhit => ?_, fun disk hdisk hhit => ?_⟩⟩
    · have hheld : ((v.sys.l1.put v.sys.now p.url p.response).held p.url).isSome = true := by
        rw [ResponseCache.held_put_self hacc]
        rfl
      have hnew := hl1 p.url (Tier.hit_put_self (T := ResponseCache.tier) hacc hheld)
      rw [l1After_accepted hacc] at hnew
      exact (older_revalidatedAfter.mp hnew).1
    · have hleft := hl1 p.url (by rw [ResponseCache.put_refused hrefused]; exact hhit)
      rw [l1After_kept fun hacc => absurd (hrefused.symm.trans hacc) Bool.false_ne_true] at hleft
      exact (older_revalidatedAfter.mp hleft).2 rfl hrevalidates
    · exact (older_revalidatedAfter.mp (hl2 disk p.url hdisk hhit)).2 rfl hrevalidates
  | write n =>
    intro w hw disk hdisk hacc hheld
    obtain ⟨w', hw', hwrite⟩ := Option.bind_eq_some_iff.mp hsys
    obtain rfl := Option.some.inj ((Option.mem_def.mp hw).symm.trans hw')
    obtain ⟨disk', hdisk', rfl⟩ := Option.map_eq_some_iff.mp hwrite
    obtain rfl := Option.some.inj ((Option.mem_def.mp hdisk).symm.trans hdisk')
    simp only [note, hw', Option.map_some, Option.getD_some] at h
    have hnew := h.l2 _ w.url rfl (Tier.hit_put_self (T := DiskCache.tier) hacc hheld)
    change older (v.l2After n w w.url) (v.revalidated w.url) = false at hnew
    rwa [l2After_accepted hdisk' hacc] at hnew
  | arrive | answer | tick => trivial

end Step

/-- Hits never go back behind a revalidation as long as what is put is not older than the answer of one,
and no revalidation leaves anything older in the caches, and only as long as that. -/
theorem readsForward_iff (cfg : RequestConfig) (l1 : ResponseCache) (l2 : Option DiskCache)
    (start : Clock) (v : Versioned) (hv : (machine cfg l1 l2 start).Reach PutsForward v) :
    v.ReadsForward ∧
      ∀ l v', step cfg v l = some v' → (v'.ReadsForward ↔ v.PutsForward l) := by
  have hforward : v.ReadsForward := by
    refine hv.invariant ⟨?_, ?_⟩ fun _ _ _ h hok hstep => h.step hok hstep
    · exact fun _ _ => rfl
    · exact fun _ _ _ _ => rfl
  refine ⟨hforward, ?_⟩
  intro l v' hstep
  constructor
  · exact ReadsForward.putsForward hstep
  · exact fun hok => hforward.step hok hstep

end Versioned

def articleOnDisk (expires : PyFloat) : DiskCache :=
  let row : DiskEntry := ⟨⟨200, [49], [("ETag", "1")]⟩, expires, 0, 1⟩
  { smallL2 with responses := Dict.empty.set "http://origin.example/article" row }

def readThenRevalidate (wait : Clock) (fresh : HttpResponse) : List CacheLabel :=
  let noProxy := PoolView.viewOf []
  let condition := ⟨none, "GET", "http://origin.example/article", [("If-None-Match", "1")], none⟩
  [.arrive article "-" none [], .store 0, .store 0, .store 0, .tick wait,
    .arrive article "-" none [], .store 1, .store 1,
    .answer 1 ⟨.fetch .revalidate (.pickProxy none ∅ true), noProxy⟩,
    .answer 1 ⟨.fetch .revalidate (.http condition), .ok fresh⟩, .store 1]

namespace Versioned

theorem reads_forward_after_expiry : ∃ v : Versioned,
    v.revalidated "http://origin.example/article" = some 1 ∧
    (v.sys.l1.get v.sys.now "http://origin.example/article").2.isSome = true ∧ v.ReadsForward := by
  have hrun : ∃ v, (machine {} smallL1 (some (articleOnDisk (.fin 10))) ⟨0, 0⟩).Reach PutsForward v ∧
      (v.revalidated "http://origin.example/article" = some 1 ∧
        (v.sys.l1.get v.sys.now "http://origin.example/article").2.isSome = true) :=
    Machine.exists_reach_if (readThenRevalidate ⟨20, 20⟩ ⟨200, [], [50], 0⟩) (by decide +kernel)
  obtain ⟨v, hv, hfloor, hhit⟩ := hrun
  exact ⟨v, hfloor, hhit, (readsForward_iff _ _ _ _ v hv).1⟩

/-- The new version is fresh for a second, and after that the old one is found in L2. -/
theorem old_version_resurfaces : ¬ ∀ cfg l1 l2 start v,
    (machine cfg l1 l2 start).Reachable v → v.ReadsForward := by
  intro hall
  have hrun : ∃ v, (machine {} smallL1 (some (articleOnDisk (.fin 10000))) ⟨0, 0⟩).Reachable v ∧
      ((v.sys.l1.get v.sys.now "http://origin.example/article").2 = none ∧
        (v.sys.l2.any fun disk =>
          (disk.get v.sys.now "http://origin.example/article").2.isSome) = true ∧
        older (v.l2 "http://origin.example/article")
          (v.revalidated "http://origin.example/article") = true) :=
    Machine.exists_reachable (readThenRevalidate ⟨20, 20⟩
      ⟨200, [("Cache-Control", "max-age=1")], [50], 0⟩ ++ [.tick ⟨30, 30⟩]) (by decide +kernel)
  obtain ⟨v, hv, -, hhit, holder⟩ := hrun
  obtain ⟨disk, hdisk, hhit⟩ := (Option.any_eq_true _ _).mp hhit
  have hnot := (hall _ _ _ _ v hv).l2 disk _ hdisk hhit
  exact absurd (holder.symm.trans hnot) Bool.false_ne_true.symm

end Versioned

end ProxySplit
