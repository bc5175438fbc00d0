import ProxySplit.Pool
import Mathlib.Data.List.TakeWhile

namespace ProxySplit

open Lib

namespace ProxyEntry

def named : ProxyEntry → Bool
  | .dict none _ => false
  | .dict (some _) _ | .text _ => true

def lastTags (u : Url) : List ProxyEntry → Option (Finset String)
  | [] => none
  | .text _ :: entries => lastTags u entries
  | .dict url tags :: entries =>
    (lastTags u entries).or (if url = some u then some (ProxySources.tagSet tags) else none)

end ProxyEntry

open ProxyEntry

def livePart (raw : List Url) (tor : TorUrls) (alive : Url → Bool) : List Url :=
  (raw.filter fun p => p ∉ tor.urls ∧ supported p ∧ alive p) ++ tor.urls

namespace Reloading

theorem get?_refill (entries : List ProxyEntry) (proxyTags : ProxyTags) (u : Url) :
    (refill proxyTags entries).1.get? u =
      (lastTags u (entries.takeWhile named)).or (proxyTags.get? u) := by
  induction entries generalizing proxyTags with
  | nil => rfl
  | cons e entries ih =>
    cases e with
    | text v => exact ih proxyTags
    | dict url tags =>
      cases url with
      | none => rfl
      | some v =>
        rw [refill, ih, Dict.get?_set, List.takeWhile_cons_of_pos rfl, lastTags, Option.or_assoc]
        by_cases hu : u = v
        · simp [hu]
        · simp [hu, Ne.symm hu]

theorem refill_snd (entries : List ProxyEntry) (proxyTags : ProxyTags) :
    (refill proxyTags entries).2 = entries.all named := by
  induction entries generalizing proxyTags with
  | nil => rfl
  | cons e entries ih =>
    cases e with
    | text v => exact ih proxyTags
    | dict url tags =>
      cases url with
      | none => rfl
      | some v => exact ih _

theorem filter_foldl_addOnce (tor : List Url) {ps : List Url} (hps : ps ⊆ tor) (raw : List Url) :
    (ps.foldl ProxySources.addOnce raw).filter (· ∉ tor) = raw.filter (· ∉ tor) := by
  induction ps generalizing raw with
  | nil => rfl
  | cons p ps ih =>
    obtain ⟨hp, hps⟩ := List.cons_subset.mp hps
    rw [List.foldl_cons, ih hps, ProxySources.addOnce]
    split
    · rfl
    · rw [List.filter_append, List.filter_cons_of_neg (by simpa using hp), List.filter_nil,
        List.append_nil]

theorem newPool_eq {r : Reloading} {raw : List Url} (h : r.static = staticOf raw r.tor)
    (alive : Url → Bool) : r.newPool alive = livePart raw r.tor alive := by
  rw [newPool, livePart, h, staticOf, filter_foldl_addOnce r.tor.urls (List.Subset.refl _),
    List.filter_filter]
  congr 1
  refine List.filter_congr fun p _ => ?_
  simp [Bool.and_comm]

end Reloading

namespace ProxySources

theorem get?_collectEntries (entries : List ProxyEntry) (proxyTags : ProxyTags) (proxies : List Url)
    (u : Url) : (entries.foldl collectEntry (proxyTags, proxies)).1.get? u =
      (if u = "" then none else lastTags u entries).or (proxyTags.get? u) := by
  induction entries generalizing proxyTags proxies with
  | nil => simp [lastTags]
  | cons e entries ih =>
    cases e with
    | text v => exact ih proxyTags _
    | dict url tags =>
      rw [List.foldl_cons, collectEntry, lastTags]
      split
      · next hurl =>
        rw [ih]
        by_cases hu : u = ""
        · simp [hu]
        · have hne : url ≠ some u := by
            rintro rfl
            simp [truthy, hu] at hurl
          simp [hu, hne]
      · next v hurl =>
        obtain ⟨rfl, hv⟩ := truthy_eq_some hurl
        rw [ih, Dict.get?_set]
        by_cases hu : u = v
        · simp [hu, hv]
        · simp [hu, Ne.symm hu]

theorem collectEntries_snd (entries : List ProxyEntry) (proxyTags proxyTags' : ProxyTags)
    (proxies : List Url) : (entries.foldl collectEntry (proxyTags, proxies)).2 =
      (entries.foldl collectEntry (proxyTags', proxies)).2 := by
  induction entries generalizing proxyTags proxyTags' proxies with
  | nil => rfl
  | cons e entries ih =>
    cases e with
    | text v => exact ih ..
    | dict url tags =>
      simp only [List.foldl_cons, collectEntry]
      split
      · exact ih ..
      · exact ih ..

theorem addFiles_eq_none {files : List (Option (List Url))} {proxies : List Url} :
    addFiles proxies files = none ↔ none ∈ files := by
  induction files generalizing proxies with
  | nil => simp [addFiles]
  | cons file files ih =>
    cases file with
    | none => simp [addFiles]
    | some ps => simp [addFiles, ih]

theorem collectProxies_snd (s : ProxySources) (proxyTags : ProxyTags) :
    (s.collectProxies proxyTags).2 = (s.collectProxies .empty).2 := by
  unfold collectProxies
  split
  · rfl
  · next entries _ => simp only [collectEntries_snd entries proxyTags .empty]

theorem collectProxies_eq_none {s : ProxySources} {entries : List ProxyEntry}
    (h : s.proxies = some entries) (proxyTags : ProxyTags) :
    (s.collectProxies proxyTags).2 = none ↔ none ∈ s.files := by
  simp only [collectProxies, h, addFiles_eq_none]

theorem get?_collectProxies {s : ProxySources} {entries : List ProxyEntry}
    (h : s.proxies = some entries) (proxyTags : ProxyTags) (u : Url) :
    (s.collectProxies proxyTags).1.get? u =
      (if u = "" then none else lastTags u entries).or (proxyTags.get? u) := by
  simp only [collectProxies, h, get?_collectEntries]

theorem eq_of_reload {s : ProxySources} {tor : TorUrls} {proxyTags : ProxyTags} {r : Reloading}
    (h : (s.reload tor proxyTags).2 = some r) : ∃ raw, (s.collectProxies .empty).2 = some raw ∧
      r.entries = s.proxies.getD [] ∧ ∀ alive, r.newPool alive = livePart raw tor alive := by
  unfold reload at h
  split at h
  · cases h
  · next raw hraw =>
    cases h
    refine ⟨raw, ?_, rfl, Reloading.newPool_eq rfl⟩
    rw [← collectProxies_snd s proxyTags, hraw]

end ProxySources

namespace Pool

/-- `/proxy/reload` from its start to its end, and whether it got there.  `config` is what `load_config`
returns, `none` where it raises, and `bound` says whether `REGISTRY` in the module of the handler is the
registry. -/
def proxyReload (bound : Bool) (s : Pool K) (config : Option ProxySources) (tor : TorUrls)
    (alive : Url → Bool) : Pool K × Bool :=
  match config with
  | none => (s, false)
  | some sources =>
    match sources.reload tor s.proxyTags with
    | (proxyTags, none) => ({ s with proxyTags := proxyTags }, false)
    | (_, some r) =>
      let pool := if bound then s.replaceIf (r.newPool alive) else s
      let (proxyTags, ok) := Reloading.refill .empty r.entries
      ({ pool with proxyTags := proxyTags }, ok)

/-- The call finishes with the live part of the collected urls as the pool and the tags that the config
gives, or it fails with both as they were. -/
def AllOrNothing (bound : Bool) (s : Pool K) (config : Option ProxySources) (tor : TorUrls)
    (alive : Url → Bool) : Prop :=
  ((s.proxyReload bound config tor alive).2 = true ∧ ∃ sources ∈ config,
    ∃ raw ∈ (sources.collectProxies .empty).2,
      (s.proxyReload bound config tor alive).1.all = livePart raw tor alive ∧
      ∀ u, (s.proxyReload bound config tor alive).1.proxyTags.get? u =
        (sources.collectProxies .empty).1.get? u) ∨
  ((s.proxyReload bound config tor alive).2 = false ∧
    (s.proxyReload bound config tor alive).1.all = s.all ∧
    ∀ u, (s.proxyReload bound config tor alive).1.proxyTags.get? u = s.proxyTags.get? u)

def Reaches (bound : Bool) (s : Pool K) : Prop := bound = true ∧ s.all ≠ []

/-- A file that cannot be read comes with a config that gives no url new tags.  When all files are read,
either every dict has a url, none the empty one, and the pool is reached or has the live proxies already; or
the dicts in front of the first one without a url have just the tags there are, and the pool is out of reach
or has the live proxies already. -/
def ReloadsWhole (bound : Bool) (s : Pool K) (config : Option ProxySources) (tor : TorUrls)
    (alive : Url → Bool) : Prop :=
  ∀ sources ∈ config, ∀ entries ∈ sources.proxies,
    (none ∈ sources.files →
      ∀ u, u ≠ "" → ∀ tags ∈ lastTags u entries, s.proxyTags.get? u = some tags) ∧
    ∀ raw ∈ (sources.collectProxies .empty).2,
      (entries.all named = true →
        lastTags "" entries = none ∧ (s.Reaches bound ∨ s.all = livePart raw tor alive)) ∧
      (entries.all named = false →
        (∀ u, lastTags u (entries.takeWhile named) = s.proxyTags.get? u) ∧
          (¬ s.Reaches bound ∨ s.all = livePart raw tor alive))

variable {bound : Bool} {s : Pool K} {sources : ProxySources} {tor : TorUrls} {alive : Url → Bool}

theorem proxyReload_of_raised (h : (sources.collectProxies .empty).2 = none) :
    s.proxyReload bound (some sources) tor alive =
      ({ s with proxyTags := (sources.collectProxies s.proxyTags).1 }, false) := by
  have hnone : (sources.reload tor s.proxyTags).2 = none := by
    rw [ProxySources.reload_snd, ProxySources.collectProxies_snd, h]
  rw [← ProxySources.reload_fst sources tor]
  unfold proxyReload
  simp only
  split
  · next heq => rw [heq]
  · next heq =>
    rw [heq] at hnone
    cases hnone

theorem proxyReload_of_collected {entries : List ProxyEntry} {raw : List Url}
    (hentries : sources.proxies = some entries) (h : (sources.collectProxies .empty).2 = some raw) :
    (s.proxyReload bound (some sources) tor alive).2 = entries.all named ∧
      (∀ u, (s.proxyReload bound (some sources) tor alive).1.proxyTags.get? u =
        lastTags u (entries.takeWhile named)) ∧
      (s.Reaches bound →
        (s.proxyReload bound (some sources) tor alive).1.all = livePart raw tor alive) ∧
      (¬ s.Reaches bound → (s.proxyReload bound (some sources) tor alive).1.all = s.all) := by
  obtain ⟨r, hr⟩ : ∃ r, (sources.reload tor s.proxyTags).2 = some r := by
    rw [← Option.ne_none_iff_exists', Ne, ProxySources.reload_snd, ProxySources.collectProxies_snd, h]
    exact Option.some_ne_none _
  obtain ⟨raw', hraw', hfresh, hpool⟩ := ProxySources.eq_of_reload hr
  rw [h] at hraw'
  cases hraw'
  rw [hentries] at hfresh
  unfold proxyReload
  simp only
  split
  · next heq =>
    rw [heq] at hr
    cases hr
  · next r' heq =>
    rw [heq] at hr
    cases hr
    refine ⟨?_, fun u => ?_, ?_, ?_⟩
    · rw [hfresh, Reloading.refill_snd]
      rfl
    · rw [hfresh, Reloading.get?_refill, Dict.get?_empty, Option.or_none]
      rfl
    · rintro ⟨rfl, hne⟩
      simp [replaceIf, replace, hne, hpool]
    · intro hout
      cases bound with
      | false => rfl
      | true =>
        have hempty : s.all = [] := by
          by_contra hne
          exact hout ⟨rfl, hne⟩
        simp [replaceIf, hempty]

variable {entries : List ProxyEntry} {raw : List Url}

theorem allOrNothing_of_raised (hentries : sources.proxies = some entries)
    (hraw : (sources.collectProxies .empty).2 = none) : s.AllOrNothing bound (some sources) tor alive ↔
      ∀ u, u ≠ "" → ∀ tags ∈ lastTags u entries, s.proxyTags.get? u = some tags := by
  simp only [AllOrNothing, proxyReload_of_raised hraw, ProxySources.get?_collectProxies hentries,
    Bool.false_eq_true, false_and, true_and, false_or]
  refine forall_congr' fun u => ?_
  by_cases hu : u = ""
  · simp [hu]
  · cases hlast : lastTags u entries with
    | none => simp [hu]
    | some tags => simp [hu, eq_comm]

theorem tags_iff (hentries : sources.proxies = some entries) (hall : entries.all named = true) :
    (∀ u, lastTags u (entries.takeWhile named) = (sources.collectProxies .empty).1.get? u) ↔
      lastTags "" entries = none := by
  have htake : entries.takeWhile named = entries :=
    List.takeWhile_eq_self_iff.mpr (List.all_eq_true.mp hall)
  simp only [htake, ProxySources.get?_collectProxies hentries, Dict.get?_empty, Option.or_none]
  constructor
  · intro h
    simpa using h ""
  · intro h u
    split
    · next hu => rw [hu, h]
    · rfl

theorem allOrNothing_of_collected (hentries : sources.proxies = some entries)
    (hraw : (sources.collectProxies .empty).2 = some raw) :
    s.AllOrNothing bound (some sources) tor alive ↔
      (entries.all named = true →
        lastTags "" entries = none ∧ (s.Reaches bound ∨ s.all = livePart raw tor alive)) ∧
      (entries.all named = false →
        (∀ u, lastTags u (entries.takeWhile named) = s.proxyTags.get? u) ∧
          (¬ s.Reaches bound ∨ s.all = livePart raw tor alive)) := by
  obtain ⟨hok, htags, hreached, hout⟩ :=
    @proxyReload_of_collected K bound s sources tor alive _ _ hentries hraw
  simp only [AllOrNothing, hok, htags, Option.mem_some_iff, exists_eq_left', hraw]
  cases hall : entries.all named with
  | true =>
    simp only [true_and, Bool.true_eq_false, false_and, or_false, forall_const, false_implies, and_true,
      tags_iff hentries hall]
    rw [and_comm]
    refine and_congr_right fun _ => ?_
    by_cases hr : s.Reaches bound
    · simp [hr, hreached hr]
    · simp [hr, hout hr]
  | false =>
    simp only [Bool.false_eq_true, false_and, true_and, false_or, forall_const, false_implies]
    rw [and_comm]
    refine and_congr_right fun _ => ?_
    by_cases hr : s.Reaches bound
    · simp [hr, hreached hr, eq_comm]
    · simp [hr, hout hr]

/-- A reload is all or nothing exactly if it has nothing to undo where it fails and nothing in its way where
it gets through. -/
theorem allOrNothing_iff (K : Type) (bound : Bool) (s : Pool K) (config : Option ProxySources)
    (tor : TorUrls) (alive : Url → Bool) :
    s.AllOrNothing bound config tor alive ↔ s.ReloadsWhole bound config tor alive := by
  cases config with
  | none => exact iff_of_true (.inr ⟨rfl, rfl, fun _ => rfl⟩) (by simp [ReloadsWhole])
  | some sources =>
    cases hentries : sources.proxies with
    | none =>
      have hraised : (sources.collectProxies .empty).2 = none := by
        simp [ProxySources.collectProxies, hentries]
      refine iff_of_true (.inr ?_) (by simp [ReloadsWhole, hentries])
      rw [proxyReload_of_raised hraised]
      refine ⟨rfl, rfl, fun u => ?_⟩
      simp [ProxySources.collectProxies, hentries]
    | some entries =>
      have hfile := ProxySources.collectProxies_eq_none hentries .empty
      simp only [ReloadsWhole, Option.mem_some_iff, forall_eq', hentries]
      cases hraw : (sources.collectProxies .empty).2 with
      | none =>
        rw [allOrNothing_of_raised hentries hraw]
        simp [hfile.mp hraw]
      | some raw =>
        have hread : none ∉ sources.files := fun h => Option.some_ne_none raw (hraw ▸ hfile.mpr h)
        rw [allOrNothing_of_collected hentries hraw]
        simp [hread]

theorem run_proxyReload {p : Pool K} (h : (sources.collectProxies .empty).2 ≠ none) :
    (machine p).run s [.collect sources tor, .finish s.reloads.length alive] =
      some (s.proxyReload true (some sources) tor alive).1 := by
  obtain ⟨r, hr⟩ : ∃ r, (sources.reload tor s.proxyTags).2 = some r := by
    rwa [← Option.ne_none_iff_exists', Ne, ProxySources.reload_snd, ProxySources.collectProxies_snd]
  obtain ⟨proxyTags, hreload⟩ : ∃ proxyTags, sources.reload tor s.proxyTags = (proxyTags, some r) :=
    ⟨_, Prod.ext rfl hr⟩
  have herase : (s.reloads ++ [r]).eraseIdx s.reloads.length = s.reloads := by
    rw [List.eraseIdx_append_of_length_le (Nat.le_refl _), Nat.sub_self, List.eraseIdx_zero,
      List.tail_cons, List.append_nil]
  simp only [Machine.run, machine, step, Option.bind_some, collect, hreload, Option.toList_some,
    List.getElem?_concat_length, herase, proxyReload, finish, replaceIf, replace, if_true]
  split
  · rfl
  · rfl

def fileGone : ProxySources := ⟨some [.dict "http://10.0.0.1:8080" (some ["cdn"])], [none]⟩

theorem not_allOrNothing_fileGone (bound : Bool) :
    ¬ twoAlive.AllOrNothing bound (some fileGone) noTor fun _ => true := by
  intro h
  have hentries : fileGone.proxies = some [.dict "http://10.0.0.1:8080" (some ["cdn"])] := rfl
  have hraw : (fileGone.collectProxies .empty).2 = none := by decide +kernel
  have htags := (allOrNothing_of_raised hentries hraw).mp h "http://10.0.0.1:8080" (by decide) {"cdn"}
    (by decide +kernel)
  cases htags

/-- The tags of the new config stay although the reload has failed, whatever registry the handler has. -/
theorem failed_reload_tags :
    (¬ ∀ (s : Pool Unit) (config : Option ProxySources) (tor : TorUrls) (alive : Url → Bool),
      s.AllOrNothing false config tor alive) ∧
    ¬ ∀ (s : Pool Unit) (config : Option ProxySources) (tor : TorUrls) (alive : Url → Bool),
      s.AllOrNothing true config tor alive :=
  ⟨fun h => not_allOrNothing_fileGone false (h _ _ _ _), fun h => not_allOrNothing_fileGone true (h _ _ _ _)⟩

end Pool

end ProxySplit
