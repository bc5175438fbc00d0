import ProxySplit.Pool

namespace ProxySplit

open Lib

namespace ProxyStats

def Tracks (s : ProxyStats K) (url : Url) : Prop := (s.data.get? url).isSome

instance (s : ProxyStats K) (url : Url) : Decidable (s.Tracks url) :=
  inferInstanceAs (Decidable (_ = true))

theorem tracks_update (s : ProxyStats K) (url u : Url) (f : StatsEntry K → StatsEntry K) :
    (s.update url f).Tracks u ↔ u = url ∨ s.Tracks u := Dict.isSome_get?_set ..

theorem tracks_evict (s : ProxyStats K) (url u : Url) :
    (s.evict url).Tracks u ↔ u ≠ url ∧ s.Tracks u := Dict.isSome_get?_erase ..

end ProxyStats

namespace ProxyHealth

theorem tracks_recordFailure (h : ProxyHealth K) (url u : Url) :
    (h.recordFailure url).stats.Tracks u ↔ u = url ∨ h.stats.Tracks u :=
  ProxyStats.tracks_update ..

theorem tracks_recordSuccess (h : ProxyHealth K) (url u : Url) (n : Nat) (lat : ℚ) :
    (h.recordSuccess url n lat).stats.Tracks u ↔ u = url ∨ h.stats.Tracks u := by
  have hrecorded : (h.stats.recordSuccess h.clock.time url n lat).Tracks u ↔
      u = url ∨ h.stats.Tracks u := ProxyStats.tracks_update ..
  unfold recordSuccess CircuitBreaker.recordSuccess
  split
  · exact (ProxyStats.tracks_update ..).trans (by rw [hrecorded]; tauto)
  · exact hrecorded
  · exact hrecorded

theorem tracks_release (h : ProxyHealth K) (url u : Url) :
    (h.release url).stats.Tracks u ↔ u = url ∨ h.stats.Tracks u := ProxyStats.tracks_update ..

end ProxyHealth

namespace ProxySources

/-- The urls that `collect_proxies` tags. -/
def tagged (entries : List ProxyEntry) : List Url := entries.filterMap fun
  | .dict url _ => truthy url
  | .text _ => none

theorem isSome_collectEntries (entries : List ProxyEntry) (proxyTags : ProxyTags)
    (proxies : List Url) (u : Url) :
    (((entries.foldl collectEntry (proxyTags, proxies)).1).get? u).isSome ↔
      u ∈ tagged entries ∨ (proxyTags.get? u).isSome := by
  induction entries generalizing proxyTags proxies with
  | nil => simp [tagged]
  | cons e entries ih =>
    cases e with
    | text url =>
      rw [List.foldl_cons, collectEntry, ih]
      simp [tagged]
    | dict url tags =>
      rw [List.foldl_cons, collectEntry]
      split
      · next hurl =>
        rw [ih]
        simp [tagged, hurl]
      · next url' hurl =>
        rw [ih, Dict.isSome_get?_set]
        simp [tagged, hurl, or_assoc, or_left_comm]

theorem isSome_reload (s : ProxySources) (tor : TorUrls) (proxyTags : ProxyTags) (u : Url) :
    ((s.reload tor proxyTags).1.get? u).isSome ↔
      u ∈ tagged (s.proxies.getD []) ∨ (proxyTags.get? u).isSome := by
  rw [reload_fst]
  unfold collectProxies
  split
  · next h => simp [h, tagged]
  · next entries h => simpa [h] using isSome_collectEntries entries proxyTags [] u

end ProxySources

namespace Reloading

/-- The urls that the reload handler tags: it does not get past a dict without `url`. -/
def refilled : List ProxyEntry → List Url
  | [] => []
  | .text _ :: entries => refilled entries
  | .dict none _ :: _ => []
  | .dict (some u) _ :: entries => u :: refilled entries

theorem isSome_refill (entries : List ProxyEntry) (proxyTags : ProxyTags) (u : Url) :
    (((refill proxyTags entries).1).get? u).isSome ↔
      u ∈ refilled entries ∨ (proxyTags.get? u).isSome := by
  induction entries generalizing proxyTags with
  | nil => simp [refilled, refill]
  | cons e entries ih =>
    cases e with
    | text _ => exact ih proxyTags
    | dict url tags =>
      cases url with
      | none => simp [refilled, refill]
      | some url =>
        rw [refill, ih, Dict.isSome_get?_set, refilled]
        simp [or_assoc, or_left_comm]

end Reloading

namespace Pool

/-- The url has a rate limiter, statistics or a place in `_tor_urls`. -/
def Kept (s : Pool K) (url : Url) : Prop :=
  (s.limiters.get? url).isSome ∨ s.health.stats.Tracks url ∨ url ∈ s.torUrls

def Tagged (s : Pool K) (url : Url) : Prop := (s.proxyTags.get? url).isSome

instance (s : Pool K) (url : Url) : Decidable (s.Kept url) := inferInstanceAs (Decidable (_ ∨ _))

instance (s : Pool K) (url : Url) : Decidable (s.Tagged url) :=
  inferInstanceAs (Decidable (_ = true))

/-- Nothing of a proxy is left. -/
structure Released (s : Pool K) (url : Url) : Prop where
  kept : ¬ s.Kept url
  tagged : ¬ s.Tagged url

/-- The tables hold only proxies of the pool; `PROXY_TAGS` does when no reload is underway. -/
structure Tables (s : Pool K) : Prop where
  kept : ∀ url, s.Kept url → url ∈ s.all
  tagged : s.reloads = [] → ∀ url, s.Tagged url → url ∈ s.all

def touched (s : Pool K) : Op → Option Url
  | .getLimiter url | .recordFailure url | .recordSuccess url _ _ | .perProxyChunkSize url
  | .warmup url _ _ => some url
  | .retest _ => s.candidates.head?
  | _ => none

def TaggedAfter (s : Pool K) (url : Url) : Op → Prop
  | .add u tags => u = url ∧ (supported u ∧ s.all ≠ []) ∧ u ∉ s.all ∧ tags ≠ [] ∨ s.Tagged url
  | .remove u => s.Tagged url ∧ ¬ (u = url ∧ url ∈ s.all)
  | .collect sources _ => url ∈ ProxySources.tagged (sources.proxies.getD []) ∨ s.Tagged url
  | .finish i _ => ∃ r ∈ s.reloads[i]?, url ∈ Reloading.refilled r.entries
  | _ => s.Tagged url

variable {s s' : Pool K} {op : Op} {url u : Url}

theorem kept_add (tags : List String) : (s.add url tags).Kept u ↔ s.Kept u := by
  unfold add
  split
  · rfl
  · rfl

theorem kept_remove : (s.remove url).Kept u ↔ s.Kept u ∧ ¬ (url = u ∧ u ∈ s.all) := by
  unfold remove
  split
  · next hmem =>
    simp only [Kept, Dict.isSome_get?_erase, ProxyHealth.evict, ProxyStats.tracks_evict,
      Finset.mem_erase]
    by_cases hu : u = url
    · simp [hu, hmem]
    · simp [hu, Ne.symm hu]
  · next hmem =>
    refine (and_iff_left ?_).symm
    rintro ⟨rfl, hin⟩
    exact hmem hin

theorem kept_getLimiter : (s.getLimiter url).Kept u ↔ url = u ∨ s.Kept u := by
  unfold getLimiter
  split
  · next b hb =>
    refine (or_iff_right_of_imp ?_).symm
    rintro rfl
    exact .inl (by simp [hb])
  · simp only [Kept, Dict.isSome_get?_set]
    tauto

theorem kept_health {health : ProxyHealth K}
    (h : health.stats.Tracks u ↔ u = url ∨ s.health.stats.Tracks u) :
    Kept { s with health := health } u ↔ url = u ∨ s.Kept u := by
  simp only [Kept, h]
  tauto

theorem kept_retested (ok : Bool) : (s.retested url ok).Kept u ↔ url = u ∨ s.Kept u := by
  cases ok with
  | false => exact kept_health (ProxyStats.tracks_update ..)
  | true =>
    have hreleased : Kept { s with health := s.health.release url } u ↔ url = u ∨ s.Kept u :=
      kept_health (ProxyHealth.tracks_release ..)
    simp only [retested, if_true]
    split
    · exact hreleased
    · exact (kept_add _).trans hreleased

theorem kept_step (h : s.step op = some s') :
    s'.Kept u ↔ s.touched op = some u ∨ s.Kept u ∧ ¬ (op = .remove u ∧ u ∈ s.all) := by
  cases op with
  | add url tags =>
    cases h
    simp only [proxyAdd, touched]
    split
    · simp [kept_add]
    · simp
  | remove url =>
    cases h
    simp [touched, kept_remove]
  | finish i alive =>
    obtain ⟨r, -, rfl⟩ := finish_of_step h
    simp [touched, Kept, finish, replaceIf, replace, apply_ite]
  | getLimiter url =>
    cases h
    simp [touched, kept_getLimiter]
  | recordFailure url =>
    cases h
    simp [touched, kept_health (ProxyHealth.tracks_recordFailure s.health url u)]
  | recordSuccess url n lat =>
    cases h
    simp [touched, kept_health (ProxyHealth.tracks_recordSuccess s.health url u n lat)]
  | perProxyChunkSize url =>
    cases h
    simpa [touched] using kept_health (ProxyStats.tracks_update s.health.stats url u id)
  | warmup url n lat =>
    obtain ⟨-, rfl⟩ := warmup_of_step h
    simpa [touched] using kept_health (ProxyStats.tracks_update s.health.stats url u _)
  | elapse dt =>
    obtain ⟨-, rfl⟩ := elapse_of_step h
    simp [touched, Kept]
  | beginRound =>
    obtain ⟨-, rfl⟩ := beginRound_of_step h
    simp [touched, Kept]
  | retest ok =>
    obtain ⟨url, rest, hc, rfl⟩ := retest_of_step h
    change (s.retested url ok).Kept u ↔ _
    simp [touched, hc, kept_retested]
  | collect | setGlobalRps | allowRequest =>
    cases h
    simp [touched, Kept, collect, ProxyHealth.allowRequest]

theorem tagged_add (tags : List String) : (s.add url tags).Tagged u ↔
    url = u ∧ u ∉ s.all ∧ tags ≠ [] ∨ s.Tagged u := by
  unfold add
  split
  · next hmem =>
    refine (or_iff_right_of_imp ?_).symm
    rintro ⟨rfl, hnew, -⟩
    exact absurd hmem hnew
  · next hmem =>
    by_cases htags : tags = []
    · simp [Tagged, htags]
    · simp only [htags, if_false, ne_eq, not_false_eq_true, and_true]
      refine (Dict.isSome_get?_set ..).trans (or_congr_left ⟨?_, ?_⟩)
      · rintro rfl
        exact ⟨rfl, hmem⟩
      · rintro ⟨rfl, -⟩
        rfl

theorem tagged_remove : (s.remove url).Tagged u ↔ s.Tagged u ∧ ¬ (url = u ∧ u ∈ s.all) := by
  unfold remove
  split
  · next hmem =>
    simp only [Tagged, Dict.isSome_get?_erase]
    by_cases hu : u = url
    · simp [hu, hmem]
    · simp [hu, Ne.symm hu]
  · next hmem =>
    refine (and_iff_left ?_).symm
    rintro ⟨rfl, hin⟩
    exact hmem hin

theorem tagged_retested (ok : Bool) : (s.retested url ok).Tagged u ↔ s.Tagged u := by
  cases ok with
  | false => rfl
  | true =>
    simp only [retested, if_true]
    split
    · rfl
    · refine (tagged_add []).trans ?_
      simp [Tagged]

theorem tagged_step (h : s.step op = some s') : s'.Tagged u ↔ s.TaggedAfter u op := by
  cases op with
  | add url tags =>
    cases h
    simp only [proxyAdd, TaggedAfter]
    split
    · next hsup =>
      rw [tagged_add]
      refine or_congr_left ⟨?_, ?_⟩
      · rintro ⟨rfl, hnew, htags⟩
        exact ⟨rfl, hsup, hnew, htags⟩
      · rintro ⟨rfl, -, hnew, htags⟩
        exact ⟨rfl, hnew, htags⟩
    · next hsup => simp [hsup]
  | remove url =>
    cases h
    exact tagged_remove
  | collect sources tor =>
    cases h
    exact ProxySources.isSome_reload ..
  | finish i alive =>
    obtain ⟨r, hr, rfl⟩ := finish_of_step h
    refine (Reloading.isSome_refill r.entries .empty u).trans ?_
    simp [TaggedAfter, hr]
  | getLimiter url =>
    cases h
    simp only [getLimiter]
    split
    · rfl
    · rfl
  | warmup url n lat =>
    obtain ⟨-, rfl⟩ := warmup_of_step h
    rfl
  | elapse dt =>
    obtain ⟨-, rfl⟩ := elapse_of_step h
    rfl
  | beginRound =>
    obtain ⟨-, rfl⟩ := beginRound_of_step h
    rfl
  | retest ok =>
    obtain ⟨url, rest, -, rfl⟩ := retest_of_step h
    exact tagged_retested ok
  | setGlobalRps | recordFailure | recordSuccess | perProxyChunkSize | allowRequest =>
    cases h
    rfl

/-- What keeps the tables to the pool: limiters and statistics are made for proxies of the pool only, a
reload drops no proxy that has any, and it tags what it puts into the pool. -/
def Tidy (s : Pool K) : Op → Prop
  | .getLimiter url | .recordFailure url | .recordSuccess url _ _ | .perProxyChunkSize url => url ∈ s.all
  | .retest false => ∀ url ∈ s.candidates.head?, url ∈ s.all
  | .collect sources _ => (sources.collectProxies s.proxyTags).2 = none → s.reloads = [] →
    ∀ url ∈ ProxySources.tagged (sources.proxies.getD []), url ∈ s.all
  | .finish i alive => ∀ r ∈ s.reloads[i]?,
    (∀ url ∈ s.all, url ∉ r.newPool alive → ¬ s.Kept url) ∧
    (s.reloads.length = 1 → ∀ url ∈ Reloading.refilled r.entries, s.all ≠ [] ∧ url ∈ r.newPool alive)
  | _ => True

theorem Tables.touched_iff (hs : s.Tables) (h : s.step op = some s') (hall : s'.all = s.all)
    (hreloads : s'.reloads = s.reloads) (htagged : ∀ u, s.TaggedAfter u op ↔ s.Tagged u) :
    s'.Tables ↔ ∀ u, s.touched op = some u → u ∈ s.all := by
  constructor
  · intro hs' u hu
    exact hall ▸ hs'.kept u ((kept_step h).mpr (.inl hu))
  · intro htouched
    refine ⟨fun u hu => ?_, fun hidle u hu => ?_⟩
    · rw [hall]
      exact ((kept_step h).mp hu).elim (htouched u) fun hu => hs.kept u hu.1
    · rw [hall]
      exact hs.tagged (hreloads ▸ hidle) u ((htagged u).mp ((tagged_step h).mp hu))

theorem Tables.add (hs : s.Tables) (tags : List String) : (s.proxyAdd url tags).Tables := by
  have hstep : s.step (.add url tags) = some (s.proxyAdd url tags) := rfl
  have hreloads : (s.proxyAdd url tags).reloads = s.reloads := by
    unfold proxyAdd Pool.add
    split
    · split <;> rfl
    · rfl
  have hsub : s.all ⊆ (s.proxyAdd url tags).all := by
    unfold proxyAdd Pool.add
    split
    · split
      · exact List.Subset.refl _
      · exact List.subset_append_left ..
    · exact List.Subset.refl _
  refine ⟨fun u hu => ?_, fun hidle u hu => ?_⟩
  · rcases (kept_step hstep).mp hu with htouched | ⟨hkept, -⟩
    · cases htouched
    · exact hsub (hs.kept u hkept)
  · rcases (tagged_step hstep).mp hu with ⟨rfl, hsup, hnew, -⟩ | htagged
    · simp [proxyAdd, Pool.add, hsup, hnew]
    · exact hsub (hs.tagged (hreloads ▸ hidle) u htagged)

theorem Tables.remove (hs : s.Tables) : (s.remove url).Tables := by
  have hreloads : (s.remove url).reloads = s.reloads := by
    unfold Pool.remove
    split <;> rfl
  have hmem : ∀ u ∈ s.all, ¬ (url = u ∧ u ∈ s.all) → u ∈ (s.remove url).all := by
    intro u hu hne
    have hother : u ≠ url := fun he => hne ⟨he.symm, hu⟩
    unfold Pool.remove
    split
    · exact (List.mem_erase_of_ne hother).mpr hu
    · exact hu
  refine ⟨fun u hu => ?_, fun hidle u hu => ?_⟩
  · obtain ⟨hkept, hne⟩ := kept_remove.mp hu
    exact hmem u (hs.kept u hkept) hne
  · obtain ⟨htagged, hne⟩ := tagged_remove.mp hu
    exact hmem u (hs.tagged (hreloads ▸ hidle) u htagged) hne

theorem Tables.reinstated (hs : s.Tables) (hstep : s.step (.retest true) = some s') :
    s'.Tables := by
  obtain ⟨url, rest, hc, rfl⟩ := retest_of_step hstep
  have hall : ∀ u, url = u ∨ u ∈ s.all → u ∈ (s.retested url true).all := by
    intro u hu
    simp only [retested, if_true, Pool.add]
    split
    · next hmem => exact hu.elim (fun he => he ▸ hmem) id
    · exact List.mem_append.mpr (hu.elim (fun he => .inr (by simp [he])) .inl)
  refine ⟨fun u hu => ?_, fun hidle u hu => ?_⟩
  · rcases (kept_step hstep).mp hu with htouched | ⟨hkept, -⟩
    · exact hall u (.inl (by simpa [touched, hc] using htouched))
    · exact hall u (.inr (hs.kept u hkept))
  · have hreloads : (s.retested url true).reloads = s.reloads := by
      simp only [retested, if_true, Pool.add]
      split
      · rfl
      · rfl
    exact hall u (.inr (hs.tagged (hreloads ▸ hidle) u ((tagged_step hstep).mp hu)))

theorem Tables.collect_iff (hs : s.Tables) (sources : ProxySources) (tor : TorUrls) :
    (s.collect sources tor).Tables ↔ s.Tidy (.collect sources tor) := by
  have hstep : s.step (.collect sources tor) = some (s.collect sources tor) := rfl
  have hreloads : (s.collect sources tor).reloads = [] ↔
      s.reloads = [] ∧ (sources.collectProxies s.proxyTags).2 = none := by
    rw [← ProxySources.reload_snd sources tor]
    simp [collect]
  constructor
  · intro hs' hraised hidle u hu
    exact hs'.tagged (hreloads.mpr ⟨hidle, hraised⟩) u ((tagged_step hstep).mpr (.inl hu))
  · intro htidy
    refine ⟨fun u hu => ?_, fun hidle u hu => ?_⟩
    · rcases (kept_step hstep).mp hu with htouched | ⟨hkept, -⟩
      · cases htouched
      · exact hs.kept u hkept
    · obtain ⟨hidle, hraised⟩ := hreloads.mp hidle
      exact ((tagged_step hstep).mp hu).elim (htidy hraised hidle u) (hs.tagged hidle u)

theorem Tables.finish_iff (hs : s.Tables) {i : Nat} {alive : Url → Bool}
    (hstep : s.step (.finish i alive) = some s') : s'.Tables ↔ s.Tidy (.finish i alive) := by
  obtain ⟨r, hr, rfl⟩ := finish_of_step hstep
  have hlt : i < s.reloads.length := (List.getElem?_eq_some_iff.mp hr).1
  have hidle : s.reloads.eraseIdx i = [] ↔ s.reloads.length = 1 := by
    rw [← List.length_eq_zero_iff, List.length_eraseIdx_of_lt hlt]
    omega
  have htagged : ∀ u, s.TaggedAfter u (.finish i alive) ↔ u ∈ Reloading.refilled r.entries := by
    simp [TaggedAfter, hr]
  simp only [Tidy, hr, Option.mem_some_iff, forall_eq']
  constructor
  · intro hs'
    refine ⟨fun u _ hdrop hkept => hdrop ?_, fun hone u hu => ?_⟩
    · exact (mem_finish.mp (hs'.kept u ((kept_step hstep).mpr (.inr ⟨hkept, by simp⟩)))).2
    · exact mem_finish.mp (hs'.tagged (hidle.mpr hone) u ((tagged_step hstep).mpr ((htagged u).mpr hu)))
  · rintro ⟨hdropped, htags⟩
    refine ⟨fun u hu => ?_, fun hnone u hu => ?_⟩
    · rcases (kept_step hstep).mp hu with htouched | ⟨hkept, -⟩
      · cases htouched
      · have hmem := hs.kept u hkept
        refine mem_finish.mpr ⟨List.ne_nil_of_mem hmem, ?_⟩
        by_contra hdrop
        exact hdropped u hmem hdrop hkept
    · exact mem_finish.mpr (htags (hidle.mp hnone) u ((htagged u).mp ((tagged_step hstep).mp hu)))

theorem Tables.step_iff (hs : s.Tables) (h : s.step op = some s') : s'.Tables ↔ s.Tidy op := by
  cases op with
  | add url tags => cases h; exact iff_of_true (hs.add tags) trivial
  | remove url => cases h; exact iff_of_true hs.remove trivial
  | collect sources tor => cases h; exact hs.collect_iff sources tor
  | finish i alive => exact hs.finish_iff h
  | retest ok =>
    cases ok with
    | true => exact iff_of_true (hs.reinstated h) trivial
    | false =>
      obtain ⟨url, rest, -, rfl⟩ := retest_of_step h
      exact hs.touched_iff h rfl rfl fun _ => Iff.rfl
  | getLimiter url =>
    refine (hs.touched_iff h ?_ ?_ (fun _ => Iff.rfl)).trans (by simp [touched, Tidy])
    · cases h
      unfold getLimiter
      split <;> rfl
    · cases h
      unfold getLimiter
      split <;> rfl
  | warmup url n lat =>
    obtain ⟨hmem, rfl⟩ := warmup_of_step h
    exact (hs.touched_iff h rfl rfl (fun _ => Iff.rfl)).trans (by simp [touched, Tidy, hmem])
  | elapse dt =>
    obtain ⟨-, rfl⟩ := elapse_of_step h
    exact (hs.touched_iff h rfl rfl (fun _ => Iff.rfl)).trans (by simp [touched, Tidy])
  | beginRound =>
    obtain ⟨-, rfl⟩ := beginRound_of_step h
    exact (hs.touched_iff h rfl rfl (fun _ => Iff.rfl)).trans (by simp [touched, Tidy])
  | setGlobalRps | recordFailure | recordSuccess | perProxyChunkSize | allowRequest =>
    have hcopy := h
    cases hcopy
    exact (hs.touched_iff h rfl rfl (fun _ => Iff.rfl)).trans (by simp [touched, Tidy])

theorem released_of_remove (hmem : url ∈ s.all) : (s.remove url).Released url :=
  ⟨fun h => (kept_remove.mp h).2 ⟨rfl, hmem⟩, fun h => (tagged_remove.mp h).2 ⟨rfl, hmem⟩⟩

/-- After a reload nothing is left of the proxies it dropped if there was nothing to leave. -/
theorem released_of_finish_iff {i : Nat} {alive : Url → Bool} {r : Reloading}
    (hr : s.reloads[i]? = some r) (h : s.step (.finish i alive) = some s') :
    (∀ url ∈ s.all, url ∉ s'.all → s'.Released url) ↔
      ∀ url ∈ s.all, url ∉ r.newPool alive → ¬ s.Kept url ∧ url ∉ Reloading.refilled r.entries := by
  have hdrop : ∀ u ∈ s.all, u ∉ s'.all ↔ u ∉ r.newPool alive := by
    intro u hu
    simp only [step, hr] at h
    cases h
    exact not_congr (mem_finish.trans (and_iff_right (List.ne_nil_of_mem hu)))
  have hreleased : ∀ u, s'.Released u ↔ ¬ s.Kept u ∧ u ∉ Reloading.refilled r.entries := by
    intro u
    have hkept : s'.Kept u ↔ s.Kept u := by simpa [touched] using kept_step (u := u) h
    have htagged : s'.Tagged u ↔ u ∈ Reloading.refilled r.entries := by
      simpa [TaggedAfter, hr] using tagged_step (u := u) h
    rw [← hkept, ← htagged]
    exact ⟨fun hu => ⟨hu.kept, hu.tagged⟩, fun hu => ⟨hu.1, hu.2⟩⟩
  refine forall₂_congr fun u hu => ?_
  rw [hdrop u hu, hreleased]

variable {sources : ProxySources} {tor : TorUrls} {alive : Url → Bool} {threshold : Nat}
  {base max rps : ℚ} {clock : Clock} {p : Pool K}

theorem tables_start_iff (hp : start K sources tor alive threshold base max rps clock = some p) :
    p.Tables ↔ ∀ url ∈ ProxySources.tagged (sources.proxies.getD []), url ∈ p.all := by
  obtain ⟨r, -, rfl⟩ := Option.map_eq_some_iff.mp hp
  have htagged := ProxySources.isSome_reload sources tor .empty
  constructor
  · intro h u hu
    exact h.tagged rfl u ((htagged u).mpr (.inl hu))
  · intro h
    refine ⟨fun u hu => ?_, fun _ u hu => ?_⟩
    · rcases hu with hlimiter | hstats | htor
      · cases hlimiter
      · cases hstats
      · exact List.mem_append_right _ (List.mem_toFinset.mp htor)
    · exact ((htagged u).mp hu).elim (h u) nofun

theorem tables_of_reach (hp : p.Tables) (hs : (machine p).Reach Tidy s) : s.Tables :=
  hs.invariant (I := Tables) hp fun _ _ _ hI hok hstep => (hI.step_iff hstep).mpr hok

/-- A removed proxy leaves nothing behind.  One that a reload drops does if it has a limiter, statistics or a
place in `_tor_urls`, or if the fresh config tags it.  The tables hold only proxies of the pool as long as no
reload drops such a proxy, nothing is made for proxies outside the pool and what a config tags is in the pool,
and no longer. -/
theorem tables_iff (K : Type) (sources : ProxySources) (tor : TorUrls) (alive : Url → Bool)
    (threshold : Nat) (base max rps : ℚ) (clock : Clock) (p : Pool K)
    (hp : start K sources tor alive threshold base max rps clock = some p) (s : Pool K) :
    ((machine p).Reachable s → (∀ url ∈ s.all, (s.remove url).Released url) ∧
      ∀ i r alive s', s.reloads[i]? = some r → s.step (.finish i alive) = some s' →
        ((∀ url ∈ s.all, url ∉ s'.all → s'.Released url) ↔ ∀ url ∈ s.all, url ∉ r.newPool alive →
          ¬ s.Kept url ∧ url ∉ Reloading.refilled r.entries)) ∧
    (p.Tables ↔ ∀ url ∈ ProxySources.tagged (sources.proxies.getD []), url ∈ p.all) ∧
    (p.Tables → (machine p).Reach Tidy s → s.Tables ∧
      ∀ op s', s.step op = some s' → (s'.Tables ↔ s.Tidy op)) := by
  refine ⟨fun _ => ⟨fun url => released_of_remove, ?_⟩, tables_start_iff hp, fun htables hs => ?_⟩
  · intro i r alive s' hr hstep
    exact released_of_finish_iff hr hstep
  · have hI := tables_of_reach htables hs
    exact ⟨hI, fun op s' hstep => hI.step_iff hstep⟩

instance (s : Pool K) : (op : Op) → Decidable (s.Tidy op)
  | .getLimiter url | .recordFailure url | .recordSuccess url _ _ | .perProxyChunkSize url =>
    inferInstanceAs (Decidable (url ∈ s.all))
  | .retest false => inferInstanceAs (Decidable (∀ url ∈ s.candidates.head?, url ∈ s.all))
  | .collect sources _ => inferInstanceAs (Decidable
    ((sources.collectProxies s.proxyTags).2 = none → s.reloads = [] →
      ∀ url ∈ ProxySources.tagged (sources.proxies.getD []), url ∈ s.all))
  | .finish i alive => inferInstanceAs (Decidable (∀ r ∈ s.reloads[i]?,
    (∀ url ∈ s.all, url ∉ r.newPool alive → ¬ s.Kept url) ∧
    (s.reloads.length = 1 → ∀ url ∈ Reloading.refilled r.entries,
      s.all ≠ [] ∧ url ∈ r.newPool alive)))
  | .retest true | .add .. | .remove _ | .setGlobalRps _ | .warmup .. | .allowRequest _ | .elapse _
  | .beginRound => inferInstanceAs (Decidable True)

def swapped : ProxySources :=
  ⟨some [.dict "http://10.0.0.1:8080" (some ["cdn"]), .text "http://10.0.0.3:8080"], []⟩

theorem tables_after_swap : ∃ s : Pool Unit, s.Tables ∧ "http://10.0.0.2:8080" ∉ s.all ∧
    s.Kept "http://10.0.0.1:8080" ∧ s.Tagged "http://10.0.0.1:8080" := by
  have hrun : ∃ s, (machine twoAlive).Reach Tidy s ∧ "http://10.0.0.2:8080" ∉ s.all ∧
      s.Kept "http://10.0.0.1:8080" ∧ s.Tagged "http://10.0.0.1:8080" :=
    Machine.exists_reach_if
      [.getLimiter "http://10.0.0.1:8080", .recordSuccess "http://10.0.0.1:8080" 1024 250,
        .collect swapped noTor, .finish 0 fun _ => true]
      (by decide +kernel)
  obtain ⟨s, hs, hstate⟩ := hrun
  obtain ⟨-, hboot, hruns⟩ := tables_iff Unit _ _ _ _ _ _ _ _ _ start_twoAlive s
  exact ⟨s, (hruns (hboot.mpr (by decide +kernel)) hs).1, hstate⟩

/-- The reload drops a proxy that was used, and its statistics stay. -/
theorem dropped_proxy_stays_known : ¬ ∀ (sources : ProxySources) (tor : TorUrls)
    (alive : Url → Bool) (threshold : Nat) (base max rps : ℚ) (clock : Clock) (p s : Pool Unit),
    start Unit sources tor alive threshold base max rps clock = some p → (machine p).Reachable s →
      ∀ i alive s', s.step (.finish i alive) = some s' →
        ∀ url ∈ s.all, url ∉ s'.all → s'.Released url := by
  intro h
  obtain ⟨s, hs, hmem, hdropped⟩ := Machine.exists_reachable (M := machine twoAlive)
    (P := fun s => "http://10.0.0.2:8080" ∈ s.all ∧ (s.step (.finish 0 fun _ => true)).any (fun s' =>
      decide ("http://10.0.0.2:8080" ∉ s'.all ∧ s'.Kept "http://10.0.0.2:8080")) = true)
    [.recordSuccess "http://10.0.0.2:8080" 1024 250, .collect swapped noTor]
    (by decide +kernel)
  obtain ⟨s', hstep, hstate⟩ := (Option.any_eq_true ..).mp hdropped
  obtain ⟨hgone, hkept⟩ := of_decide_eq_true hstate
  exact (h _ _ _ _ _ _ _ _ _ s start_twoAlive hs 0 _ s' hstep _ hmem hgone).kept hkept

end Pool

end ProxySplit
