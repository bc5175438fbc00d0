import ProxySplit.CacheTier
import ProxySplit.Handlers.CacheRuns

namespace ProxySplit

open Lib Prog

abbrev Lookup := Request (Except PyExc (Option Response))

/-- A response that is put into both caches at one time. -/
structure Storing where
  l1 : ResponseCache
  l2 : DiskCache
  start : Clock
  url : Url
  response : Cached
  accepted₁ : l1.accepts response = true
  accepted₂ : l2.accepts response = true

/-- Both caches, with the lookups that are under way. -/
structure Tiers where
  l1 : ResponseCache
  l2 : DiskCache
  now : Clock
  lookups : List Lookup

inductive TiersLabel
  | lookup (cfg : RequestConfig) (req : ClientRequest) (url : Url) (rid : String)
  | answer (i : Nat) (ev : Event RequestEffect RequestAnswer)
  | store (i : Nat)
  | evict (url : Url)
  | tick (now : Clock)

def Unchanged (url : Url) : (e : RequestEffect) → RequestAnswer e → Bool
  | .fetch .revalidate (.http q), .ok resp => q.url ≠ url ∨ resp.status ≠ 200
  | _, _ => true

def Lookup.answer (url : Url) (p : Lookup) (ev : Event RequestEffect RequestAnswer) : Option Lookup :=
  match p with
  | .pure _ => none
  | .perform e k =>
    if h : ev.1 = e then
      if Outside ev.1 ev.2 ∧ Unchanged url ev.1 ev.2 then some (k (h ▸ ev.2)) else none
    else none

def Lookup.puts : Lookup → Option Url
  | .perform (.cachePut url _) _ => some url
  | _ => none

def Tiers.store (s : Tiers) (i : Nat) : Lookup → Option Tiers
  | .perform (.cacheGet url) k =>
    let (l1, hit) := s.l1.get s.now url
    some { s with l1 := l1, lookups := s.lookups.set i (k hit) }
  | .perform (.cacheValidators url) k =>
    some { s with lookups := s.lookups.set i (k (s.l1.getValidators url)) }
  | .perform (.cachePut url r) k =>
    some { s with l1 := s.l1.put s.now url r, lookups := s.lookups.set i (k ()) }
  | .perform (.diskGet url) k =>
    let (l2, hit) := s.l2.get s.now url
    some { s with l2 := l2, lookups := s.lookups.set i (k (.ok hit)) }
  | _ => none

namespace Storing

def step (z : Storing) (s : Tiers) : TiersLabel → Option Tiers
  | .lookup cfg req url rid =>
    some { s with lookups := s.lookups ++ [serveCached cfg req url rid] }
  | .answer i ev =>
    s.lookups[i]?.bind fun p => (Lookup.answer z.url p ev).map fun p' =>
      { s with lookups := s.lookups.set i p' }
  | .store i => s.lookups[i]?.bind fun p => s.store i p
  | .evict url => some { s with l1 := s.l1.invalidate url }
  | .tick now => if s.now.monotonic ≤ now.monotonic then some { s with now := now } else none

def machine (z : Storing) : Machine Tiers TiersLabel :=
  ⟨⟨z.l1.put z.start z.url z.response, z.l2.put z.start z.url z.response, z.start, []⟩, z.step⟩

def expires₁ (z : Storing) : PyFloat := (Held.of z.l1.defaultTtl z.start z.response).expires

def expires₂ (z : Storing) : PyFloat := (Held.of z.l2.defaultTtl z.start z.response).expires

def Overdue (z : Storing) (t : ℚ) : Prop := z.expires₁.lt t = true ∧ z.expires₂.lt t = true

/-- Neither cache returns the response any longer once it is overdue. -/
def Retires (z : Storing) (s : Tiers) : Prop :=
  (s.l1.get s.now z.url).2 = some z.response ∨ (s.l2.get s.now z.url).2 = some z.response →
    ¬ z.Overdue s.now.monotonic

/-- A promotion that is done now ends no later than the response would have. -/
def PromotesInTime (z : Storing) (s : Tiers) : TiersLabel → Prop
  | .store i => s.lookups[i]?.bind Lookup.puts = some z.url →
      (Held.of s.l1.defaultTtl s.now z.response).expires.noLater z.expires₁ = true ∨
      (Held.of s.l1.defaultTtl s.now z.response).expires.noLater z.expires₂ = true
  | _ => True

instance (z : Storing) (s : Tiers) (l : TiersLabel) : Decidable (z.PromotesInTime s l) :=
  match l with
  | .store _ => inferInstanceAs (Decidable (_ → _))
  | .lookup .. | .answer .. | .evict _ | .tick _ => isTrue trivial

def Finds (z : Storing) : (e : RequestEffect) → RequestAnswer e → Prop
  | .cacheGet url, some r => url = z.url → r = z.response
  | .diskGet url, .ok (some r) => url = z.url → r = z.response
  | .fetch .revalidate (.http q), .ok resp => q.url = z.url → resp.status ≠ 200
  | _, _ => True

def Promotes (z : Storing) : (e : RequestEffect) → RequestAnswer e → Prop
  | .cachePut url r, _ => url = z.url → r = z.response
  | _, _ => True

structure Inv (z : Storing) (s : Tiers) : Prop where
  ttl : s.l1.defaultTtl = z.l1.defaultTtl
  accepts : s.l1.accepts = z.l1.accepts
  held₁ : ∀ w, s.l1.held z.url = some w →
    w.cached = z.response ∧ ∀ t, z.Overdue t → w.expires.lt t = true
  held₂ : ∀ w, s.l2.held z.url = some w → w = .of z.l2.defaultTtl z.start z.response
  lookups : ∀ p ∈ s.lookups, Keeps z.Finds z.Promotes p fun _ => True

section Programs

variable {z : Storing} {url : Url} {rid : String}

theorem keeps_revalidationGet {pool : Option String} {weighted : Bool} {headers : Headers} :
    Keeps z.Finds z.Promotes (within .revalidate (revalidationGet pool weighted url headers))
      fun r => ∀ resp, r = .ok resp → url = z.url → resp.status ≠ 200 := by
  rw [keeps_within, revalidationGet, pickProxy, bind_assoc, keeps_bind, keeps_call]
  intro view _
  refine ⟨trivial, ?_⟩
  intro r hfinds
  refine ⟨trivial, ?_⟩
  rintro resp rfl
  exact hfinds

theorem keeps_serveL1 {cfg : RequestConfig} {req : ClientRequest} {cached : Cached} :
    Keeps z.Finds z.Promotes (serveL1 cfg req url rid cached) fun _ => True := by
  rw [serveL1, keeps_bind, keeps_call]
  intro validators _
  refine ⟨trivial, ?_⟩
  dsimp only
  split
  · trivial
  · rw [keeps_bind]
    refine keeps_revalidationGet.mono (fun _ _ h => h) (fun _ _ _ h => h) fun r hr => ?_
    split
    · split
      · trivial
      · trivial
    · next resp =>
      split
      · trivial
      · split
        · next hstatus =>
          exact fun _ _ => ⟨fun hu => absurd hstatus (hr resp rfl hu), trivial⟩
        · trivial

theorem keeps_serveL2 : Keeps z.Finds z.Promotes (serveL2 url rid) fun _ => True := by
  rw [serveL2, keeps_bind, keeps_call]
  intro hit hfinds
  refine ⟨trivial, ?_⟩
  split
  · trivial
  · trivial
  · exact fun _ _ => ⟨hfinds, trivial⟩

theorem keeps_serveCached {cfg : RequestConfig} {req : ClientRequest} :
    Keeps z.Finds z.Promotes (serveCached cfg req url rid) fun _ => True := by
  unfold serveCached
  split
  · rw [keeps_bind, keeps_call]
    intro hit _
    refine ⟨trivial, ?_⟩
    split
    · rw [keeps_bind]
      refine keeps_serveL1.mono (fun _ _ h => h) (fun _ _ _ h => h) fun r _ => ?_
      split
      · trivial
      · trivial
    · exact keeps_serveL2
  · trivial

end Programs

section Step

variable {z : Storing} {s s' : Tiers} {l : TiersLabel} {i : Nat} {p p' : Lookup}

theorem Inv.setLookup (h : z.Inv s) (hp : Keeps z.Finds z.Promotes p fun _ => True) :
    z.Inv { s with lookups := s.lookups.set i p } := by
  refine ⟨h.ttl, h.accepts, h.held₁, h.held₂, ?_⟩
  intro q hq
  rcases List.mem_or_eq_of_mem_set hq with hq | rfl
  · exact h.lookups q hq
  · exact hp

theorem keeps_answer (h : Keeps z.Finds z.Promotes p fun _ => True)
    {ev : Event RequestEffect RequestAnswer} (hp : Lookup.answer z.url p ev = some p') :
    Keeps z.Finds z.Promotes p' fun _ => True := by
  unfold Lookup.answer at hp
  split at hp
  · cases hp
  · next e k =>
    split at hp
    · next heq =>
      subst heq
      split at hp
      · next hout =>
        cases hp
        have hfinds : z.Finds ev.1 ev.2 := by
          obtain ⟨e, x⟩ := ev
          cases e with
          | cacheGet => exact absurd hout.1 Bool.false_ne_true
          | diskGet url =>
            cases x with
            | error exc => trivial
            | ok hit => exact absurd hout.1 Bool.false_ne_true
          | fetch part e =>
            cases part with
            | revalidate =>
              cases e with
              | http q =>
                cases x with
                | error exc => trivial
                | ok resp =>
                  have hnew := of_decide_eq_true hout.2
                  exact fun hu => hnew.resolve_left (not_not.mpr hu)
              | _ => trivial
            | _ => trivial
          | _ => trivial
        exact (h _ hfinds).2
      · cases hp
    · cases hp

theorem Inv.store (h : z.Inv s) (hi : s.lookups[i]? = some p) (hok : z.PromotesInTime s (.store i))
    (hs : s.store i p = some s') : z.Inv s' := by
  have hp := h.lookups p (List.mem_of_getElem? hi)
  unfold Tiers.store at hs
  split at hs
  · next url k =>
    cases hs
    have hfinds : z.Finds (.cacheGet url) (s.l1.get s.now url).2 := by
      cases hhit : (s.l1.get s.now url).2 with
      | none => trivial
      | some r =>
        rintro rfl
        obtain ⟨w, hw, -, rfl⟩ := ResponseCache.hit_iff.mp hhit
        exact (h.held₁ w hw).1
    have hl1 : z.Inv { s with l1 := (s.l1.get s.now url).1 } :=
      ⟨ResponseCache.defaultTtl_get.trans h.ttl, ResponseCache.accepts_get.trans h.accepts,
        fun w hw => h.held₁ w (ResponseCache.held_get hw), h.held₂, h.lookups⟩
    exact hl1.setLookup (hp _ hfinds).2
  · next url k =>
    cases hs
    exact h.setLookup (hp _ trivial).2
  · next url r k =>
    cases hs
    obtain ⟨hput, hrest⟩ := hp () trivial
    have hl1 : z.Inv { s with l1 := s.l1.put s.now url r } := by
      refine ⟨ResponseCache.defaultTtl_put.trans h.ttl, ResponseCache.accepts_put.trans h.accepts,
        ?_, h.held₂, h.lookups⟩
      intro w hw
      rcases ResponseCache.held_put hw with ⟨-, hu, rfl⟩ | ⟨-, hold⟩
      · obtain rfl : r = z.response := hput hu.symm
        refine ⟨rfl, fun t ht => ?_⟩
        rw [PromotesInTime, hi] at hok
        rcases hok (congrArg some hu.symm) with h₁ | h₂
        · exact PyFloat.lt_of_noLater h₁ ht.1
        · exact PyFloat.lt_of_noLater h₂ ht.2
      · exact h.held₁ w hold
    exact hl1.setLookup hrest
  · next url k =>
    cases hs
    have hfinds : z.Finds (.diskGet url) (.ok (s.l2.get s.now url).2) := by
      cases hhit : (s.l2.get s.now url).2 with
      | none => trivial
      | some r =>
        rintro rfl
        obtain ⟨w, hw, -, rfl⟩ := DiskCache.hit_iff.mp hhit
        rw [h.held₂ w hw]
        rfl
    have hl2 : z.Inv { s with l2 := (s.l2.get s.now url).1 } :=
      ⟨h.ttl, h.accepts, h.held₁, fun w hw => h.held₂ w (DiskCache.held_get hw), h.lookups⟩
    exact hl2.setLookup (hp _ hfinds).2
  · cases hs

theorem Inv.step (h : z.Inv s) (hok : z.PromotesInTime s l) (hs : z.step s l = some s') :
    z.Inv s' := by
  cases l with
  | lookup cfg req url rid =>
    cases hs
    refine ⟨h.ttl, h.accepts, h.held₁, h.held₂, ?_⟩
    intro p hp
    rcases List.mem_append.mp hp with hp | hp
    · exact h.lookups p hp
    · rw [List.mem_singleton.mp hp]
      exact keeps_serveCached
  | answer i ev =>
    obtain ⟨p, hi, hs⟩ := Option.bind_eq_some_iff.mp hs
    obtain ⟨p', hp', rfl⟩ := Option.map_eq_some_iff.mp hs
    exact h.setLookup (keeps_answer (h.lookups p (List.mem_of_getElem? hi)) hp')
  | store i =>
    obtain ⟨p, hi, hs⟩ := Option.bind_eq_some_iff.mp hs
    exact h.store hi hok hs
  | evict url =>
    cases hs
    exact ⟨h.ttl, h.accepts, fun w hw => h.held₁ w (ResponseCache.held_invalidate hw).2, h.held₂,
      h.lookups⟩
  | tick now =>
    simp only [Storing.step] at hs
    split at hs
    · cases hs
      exact ⟨h.ttl, h.accepts, h.held₁, h.held₂, h.lookups⟩
    · cases hs

theorem Inv.init : z.Inv z.machine.init := by
  refine ⟨ResponseCache.defaultTtl_put, ResponseCache.accepts_put, ?_, ?_, nofun⟩
  · intro w hw
    rcases ResponseCache.held_put hw with ⟨-, -, rfl⟩ | ⟨hne, -⟩
    · exact ⟨rfl, fun t ht => ht.1⟩
    · exact absurd rfl (hne z.accepted₁)
  · intro w hw
    rcases DiskCache.held_put hw with ⟨-, -, rfl⟩ | ⟨hne, -⟩
    · rfl
    · exact absurd rfl (hne z.accepted₂)

theorem Inv.retires (h : z.Inv s) : z.Retires s := by
  intro hret hover
  rcases hret with hget | hget
  · obtain ⟨w, hw, hlive, -⟩ := ResponseCache.hit_iff.mp hget
    rw [Held.live, (h.held₁ w hw).2 _ hover] at hlive
    cases hlive
  · obtain ⟨w, hw, hlive, -⟩ := DiskCache.hit_iff.mp hget
    rw [h.held₂ w hw, Held.live] at hlive
    have hend := hover.2
    rw [expires₂] at hend
    rw [hend] at hlive
    cases hlive

theorem Inv.promotesInTime (h : z.Inv s) (hs : z.step s l = some s')
    (hret : ∀ now, s'.now.monotonic ≤ now.monotonic → z.Retires { s' with now := now }) :
    z.PromotesInTime s l := by
  cases l with
  | store i =>
    intro hputs
    obtain ⟨p, hi, hs⟩ := Option.bind_eq_some_iff.mp hs
    rw [hi, Option.bind_some] at hputs
    unfold Lookup.puts at hputs
    split at hputs
    · next url r k =>
      cases hputs
      cases hs
      obtain rfl : r = z.response := ((h.lookups _ (List.mem_of_getElem? hi)) () trivial).1 rfl
      by_contra hlate
      rw [not_or, Bool.not_eq_true, Bool.not_eq_true] at hlate
      obtain ⟨t, h₁, h₂, hlive⟩ := PyFloat.exists_between hlate.1 hlate.2
      have hacc : s.l1.accepts z.response = true := by rw [h.accepts, z.accepted₁]
      have hfresh : (Held.of s.l1.defaultTtl s.now z.response).live s.now = true :=
        Held.live_of (ResponseCache.ttl_pos hacc)
      refine hret ⟨max t s.now.monotonic, 0⟩ (le_max_right _ _) (.inl ?_)
        ⟨PyFloat.lt_mono (le_max_left _ _) h₁, PyFloat.lt_mono (le_max_left _ _) h₂⟩
      refine ResponseCache.hit_iff.mpr ⟨_, ResponseCache.held_put_self hacc, ?_, rfl⟩
      rcases max_choice t s.now.monotonic with hmax | hmax
      · rw [hmax, Held.live, hlive]
        rfl
      · rw [hmax]
        exact hfresh
    · cases hputs
  | lookup | answer | evict | tick => trivial

end Step

/-- A stored response is returned until it is overdue and no longer, as long as every promotion to L1
ends in time, and only as long as that. -/
theorem retires_iff (z : Storing) (s : Tiers) (hs : z.machine.Reach z.PromotesInTime s) :
    z.Retires s ∧ ∀ l s', z.step s l = some s' → (z.PromotesInTime s l ↔
      ∀ now, s'.now.monotonic ≤ now.monotonic → z.Retires { s' with now := now }) := by
  have hinv : z.Inv s := hs.invariant Inv.init fun _ _ _ h hok hstep => h.step hok hstep
  refine ⟨hinv.retires, ?_⟩
  intro l s' hstep
  constructor
  · intro hok now _
    have hnext := hinv.step hok hstep
    exact Inv.retires ⟨hnext.ttl, hnext.accepts, hnext.held₁, hnext.held₂, hnext.lookups⟩
  · exact hinv.promotesInTime hstep

def ageless : Storing where
  l1 := smallL1
  l2 := smallL2
  start := ⟨0, 0⟩
  url := "http://origin.example/article"
  response := ⟨200, [104, 105], []⟩
  accepted₁ := by decide +kernel
  accepted₂ := by decide +kernel

def shortLived : Storing where
  l1 := smallL1
  l2 := smallL2
  start := ⟨0, 0⟩
  url := "http://origin.example/article"
  response := ⟨200, [104, 105], [("Cache-Control", "max-age=10")]⟩
  accepted₁ := by decide +kernel
  accepted₂ := by decide +kernel

def promoteAtFive : List TiersLabel :=
  [.evict "http://origin.example/article", .tick ⟨5, 5⟩,
    .lookup {} article "http://origin.example/article" "-", .store 0, .store 0, .store 0]

theorem retires_ageless : ∃ s,
    (s.l1.get s.now ageless.url).2 = some ageless.response ∧ ageless.Retires s := by
  have hrun : ∃ s, ageless.machine.Reach ageless.PromotesInTime s ∧
      (s.l1.get s.now ageless.url).2 = some ageless.response :=
    Machine.exists_reach_if (promoteAtFive ++ [.tick ⟨12, 12⟩]) (by decide +kernel)
  obtain ⟨s, hs, hget⟩ := hrun
  exact ⟨s, hget, (retires_iff ageless s hs).1⟩

/-- The promotion starts the ten seconds anew. -/
theorem served_past_expiry : ¬ ∀ z s, z.machine.Reachable s → Retires z s := by
  intro hall
  have hrun : ∃ s, shortLived.machine.Reachable s ∧
      ((s.l1.get s.now shortLived.url).2 = some shortLived.response ∧ s.now.monotonic = 12) :=
    Machine.exists_reachable (promoteAtFive ++ [.tick ⟨12, 12⟩]) (by decide +kernel)
  obtain ⟨s, hs, hget, hnow⟩ := hrun
  refine hall shortLived s hs (.inl hget) ?_
  rw [hnow, Overdue]
  decide +kernel

end Storing

end ProxySplit
