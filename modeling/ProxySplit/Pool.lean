import ProxySplit.ProxyHealth
import ProxySplit.RateLimiter
import ProxySplit.Registry

namespace ProxySplit

open Lib

inductive ProxyEntry
  | dict (url : Option Url) (tags : Option (List String))
  | text (url : Url)
  deriving DecidableEq

abbrev ProxyTags := Dict Url (Finset String)

/-- What `collect_proxies` reads: `proxies`, `none` for `null`, and the lines of the proxy files, `none` for
one that cannot be read.  The free list, where it is used, is one more file. -/
structure ProxySources where
  proxies : Option (List ProxyEntry)
  files : List (Option (List Url))
  deriving DecidableEq

namespace ProxySources

def tagSet (tags : Option (List String)) : Finset String := (tags.getD []).toFinset

def addOnce (proxies : List Url) (p : Url) : List Url :=
  if p ∈ proxies then proxies else proxies ++ [p]

def collectEntry : ProxyTags × List Url → ProxyEntry → ProxyTags × List Url
  | (proxyTags, proxies), .dict url tags =>
    match truthy url with
    | none => (proxyTags, proxies)
    | some u => (proxyTags.set u (tagSet tags), addOnce proxies u)
  | (proxyTags, proxies), .text u => (proxyTags, addOnce proxies u)

def addFiles (proxies : List Url) : List (Option (List Url)) → Option (List Url)
  | [] => some proxies
  | none :: _ => none
  | some ps :: files => addFiles (ps.foldl addOnce proxies) files

/-- What it has written to `PROXY_TAGS` stays there when it raises. -/
def collectProxies (s : ProxySources) (proxyTags : ProxyTags) : ProxyTags × Option (List Url) :=
  match s.proxies with
  | none => (proxyTags, none)
  | some entries =>
    let (proxyTags, proxies) := entries.foldl collectEntry (proxyTags, [])
    (proxyTags, addFiles proxies s.files)

end ProxySources

/-- `set(TOR_MANAGER.proxy_urls)` in the order in which it is iterated. -/
structure TorUrls where
  urls : List Url
  nodup : urls.Nodup
  deriving DecidableEq

def supported (p : Url) : Bool := supportedSchemes.any (startsWith p)

/-- A reload, or the start of the server, while the collected proxies are health-checked. -/
structure Reloading where
  entries : List ProxyEntry
  static : List Url
  tor : TorUrls
  nodup : (static ++ tor.urls).Nodup
  deriving DecidableEq

namespace Reloading

def staticOf (raw : List Url) (tor : TorUrls) : List Url :=
  (tor.urls.foldl ProxySources.addOnce raw).filter (· ∉ tor.urls)

/-- The pool that `filter_live_proxies_async` leaves. -/
def newPool (r : Reloading) (alive : Url → Bool) : List Url :=
  (r.static.filter fun p => supported p && alive p) ++ r.tor.urls

theorem nodup_newPool (r : Reloading) (alive : Url → Bool) : (r.newPool alive).Nodup :=
  (List.filter_sublist.append_right _).nodup r.nodup

/-- `PROXY_TAGS` after the handler has cleared it, and whether it got through the entries: one without
`url` raises. -/
def refill (proxyTags : ProxyTags) : List ProxyEntry → ProxyTags × Bool
  | [] => (proxyTags, true)
  | .text _ :: entries => refill proxyTags entries
  | .dict none _ :: _ => (proxyTags, false)
  | .dict (some u) tags :: entries => refill (proxyTags.set u (ProxySources.tagSet tags)) entries

end Reloading

namespace ProxySources

theorem nodup_addOnce {proxies : List Url} (h : proxies.Nodup) (p : Url) : (addOnce proxies p).Nodup := by
  unfold addOnce
  split
  · exact h
  · next hp => exact List.Nodup.append h (List.nodup_singleton p) (by simpa using hp)

theorem nodup_foldl_addOnce {proxies : List Url} (h : proxies.Nodup) (ps : List Url) :
    (ps.foldl addOnce proxies).Nodup := by
  induction ps generalizing proxies with
  | nil => exact h
  | cons p ps ih => exact ih (nodup_addOnce h p)

theorem nodup_addFiles {proxies raw : List Url} (h : proxies.Nodup) {files : List (Option (List Url))}
    (hraw : addFiles proxies files = some raw) : raw.Nodup := by
  induction files generalizing proxies with
  | nil => cases hraw; exact h
  | cons file files ih =>
    cases file with
    | none => cases hraw
    | some ps => exact ih (nodup_foldl_addOnce h ps) hraw

theorem nodup_collectEntries {proxyTags : ProxyTags} {proxies : List Url} (h : proxies.Nodup)
    (entries : List ProxyEntry) : (entries.foldl collectEntry (proxyTags, proxies)).2.Nodup := by
  induction entries generalizing proxyTags proxies with
  | nil => exact h
  | cons e entries ih =>
    cases e with
    | text u => exact ih (nodup_addOnce h u)
    | dict url tags =>
      rw [List.foldl_cons, collectEntry]
      split
      · exact ih h
      · exact ih (nodup_addOnce h _)

theorem nodup_collectProxies {s : ProxySources} {proxyTags : ProxyTags} {raw : List Url}
    (h : (s.collectProxies proxyTags).2 = some raw) : raw.Nodup := by
  unfold collectProxies at h
  split at h
  · cases h
  · exact nodup_addFiles (nodup_collectEntries List.nodup_nil _) h

/-- The reload handler, and `main` at the start, up to the health check. -/
def reload (s : ProxySources) (tor : TorUrls) (proxyTags : ProxyTags) :
    ProxyTags × Option Reloading :=
  match h : s.collectProxies proxyTags with
  | (proxyTags', none) => (proxyTags', none)
  | (proxyTags', some raw) => (proxyTags', some {
      entries := s.proxies.getD []
      static := Reloading.staticOf raw tor
      tor := tor
      nodup := by
        have hraw : raw.Nodup := nodup_collectProxies (by rw [h])
        refine List.Nodup.append ((nodup_foldl_addOnce hraw _).filter _) tor.nodup ?_
        intro u hu htor
        simpa [htor] using (List.mem_filter.mp hu).2 })

theorem reload_fst (s : ProxySources) (tor : TorUrls) (proxyTags : ProxyTags) :
    (s.reload tor proxyTags).1 = (s.collectProxies proxyTags).1 := by
  unfold reload
  split
  · next h => exact (congrArg Prod.fst h).symm
  · next h => exact (congrArg Prod.fst h).symm

theorem reload_snd (s : ProxySources) (tor : TorUrls) (proxyTags : ProxyTags) :
    (s.reload tor proxyTags).2 = none ↔ (s.collectProxies proxyTags).2 = none := by
  unfold reload
  split
  · next h => simp [h]
  · next h => simp [h]

end ProxySources

/-- `REGISTRY` with the tables beside it that are kept per proxy, the candidates the health checker has still
to test in its round, and the reloads that wait for a health check. -/
structure Pool (K : Type) where
  all : List Url
  torUrls : Finset Url
  proxyTags : ProxyTags
  limiters : Dict Url TokenBucket
  globalRps : ℚ
  health : ProxyHealth K
  candidates : List Url
  reloads : List Reloading
  deriving DecidableEq

namespace Pool

/-- `main`, with the proxies that were alive at the start. -/
def start (K : Type) (sources : ProxySources) (tor : TorUrls) (alive : Url → Bool) (threshold : Nat)
    (base max rps : ℚ) (clock : Clock) : Option (Pool K) :=
  let (proxyTags, reloading) := sources.reload tor .empty
  reloading.map fun r =>
    ⟨r.newPool alive, r.tor.urls.toFinset, proxyTags, .empty, rps,
      ⟨.empty, .new threshold base max, clock⟩, [], []⟩

def add (s : Pool K) (url : Url) (tags : List String) : Pool K :=
  if url ∈ s.all then s
  else { s with
    all := s.all ++ [url]
    proxyTags := if tags = [] then s.proxyTags else s.proxyTags.set url tags.toFinset }

def remove (s : Pool K) (url : Url) : Pool K :=
  if url ∈ s.all then { s with
    all := s.all.erase url
    torUrls := s.torUrls.erase url
    proxyTags := s.proxyTags.erase url
    limiters := s.limiters.erase url
    health := s.health.evict url }
  else s

def replace (s : Pool K) (newList : List Url) : Pool K := { s with all := newList }

/-- `/proxy/add`.  A registry without proxies is false in `if REGISTRY`. -/
def proxyAdd (s : Pool K) (url : Url) (tags : List String) : Pool K :=
  if supported url ∧ s.all ≠ [] then s.add url tags else s

/-- `if REGISTRY: REGISTRY.replace(new_list)`. -/
def replaceIf (s : Pool K) (newList : List Url) : Pool K :=
  if s.all = [] then s else s.replace newList

/-- `/proxy/reload` up to the health check. -/
def collect (s : Pool K) (sources : ProxySources) (tor : TorUrls) : Pool K :=
  let (proxyTags, reloading) := sources.reload tor s.proxyTags
  { s with proxyTags := proxyTags, reloads := s.reloads ++ reloading.toList }

/-- `/proxy/reload` after the health check. -/
def finish (s : Pool K) (r : Reloading) (alive : Url → Bool) : Pool K :=
  { s.replaceIf (r.newPool alive) with proxyTags := (Reloading.refill .empty r.entries).1 }

theorem all_finish (s : Pool K) (r : Reloading) (alive : Url → Bool) :
    (s.finish r alive).all = if s.all = [] then [] else r.newPool alive := by
  simp only [finish, replaceIf]
  split
  · assumption
  · rfl

theorem mem_finish {s : Pool K} {r : Reloading} {alive : Url → Bool} {u : Url} :
    u ∈ (s.finish r alive).all ↔ s.all ≠ [] ∧ u ∈ r.newPool alive := by
  rw [all_finish]
  split
  · next h => simp [h]
  · next h => simp [h]

def getLimiter (s : Pool K) (url : Url) : Pool K :=
  match s.limiters.get? url with
  | some _ => s
  | none => { s with limiters := s.limiters.set url (.new s.globalRps s.health.clock.monotonic) }

def retested (s : Pool K) (url : Url) (ok : Bool) : Pool K :=
  if ok then
    let s := { s with health := s.health.release url }
    if url ∈ s.all then s else s.add url []
  else { s with health := s.health.retestFailed url }

inductive Op
  | add (url : Url) (tags : List String)
  | remove (url : Url)
  | collect (sources : ProxySources) (tor : TorUrls)
  | finish (i : Nat) (alive : Url → Bool)
  | setGlobalRps (rps : ℚ)
  | getLimiter (url : Url)
  | recordFailure (url : Url)
  | recordSuccess (url : Url) (nbytes : Nat) (latencyMs : ℚ)
  | perProxyChunkSize (url : Url)
  | warmup (url : Url) (nbytes : Nat) (latencyMs : ℚ)
  | allowRequest (url : Url)
  | elapse (dt : ℚ)
  | beginRound
  | retest (ok : Bool)

def step (s : Pool K) : Op → Option (Pool K)
  | .add url tags => some (s.proxyAdd url tags)
  | .remove url => some (s.remove url)
  | .collect sources tor => some (s.collect sources tor)
  | .finish i alive => match s.reloads[i]? with
    | none => none
    | some r => some { s.finish r alive with reloads := s.reloads.eraseIdx i }
  | .setGlobalRps rps => some { s with globalRps := rps }
  | .getLimiter url => some (s.getLimiter url)
  | .recordFailure url => some { s with health := s.health.recordFailure url }
  | .recordSuccess url n lat => some { s with health := s.health.recordSuccess url n lat }
  | .perProxyChunkSize url =>
    some { s with health := { s.health with stats := s.health.stats.readEntry url } }
  | .warmup url n lat =>
    if url ∈ s.all then some { s with health := { s.health with
      stats := s.health.stats.seedLatency s.health.clock.time url lat n } }
    else none
  | .allowRequest url => some { s with health := s.health.allowRequest url }
  | .elapse dt => if 0 ≤ dt then some { s with health := { s.health with
      clock := ⟨s.health.clock.monotonic + dt, s.health.clock.time + dt⟩ } } else none
  | .beginRound =>
    if s.candidates = [] ∧ s.all ≠ [] then
      some { s with candidates := s.health.breaker.expiredOpen s.health.clock.monotonic }
    else none
  | .retest ok => match s.candidates with
    | [] => none
    | url :: rest => some { s.retested url ok with candidates := rest }

section Step

variable {s s' : Pool K}

theorem finish_of_step {i : Nat} {alive : Url → Bool} (h : s.step (.finish i alive) = some s') :
    ∃ r, s.reloads[i]? = some r ∧ s' = { s.finish r alive with reloads := s.reloads.eraseIdx i } := by
  rw [step] at h
  split at h
  · cases h
  · next r hr => exact ⟨r, hr, (Option.some.inj h).symm⟩

theorem warmup_of_step {url : Url} {n : Nat} {lat : ℚ} (h : s.step (.warmup url n lat) = some s') :
    url ∈ s.all ∧ s' = { s with health := { s.health with
      stats := s.health.stats.seedLatency s.health.clock.time url lat n } } := by
  rw [step] at h
  split at h
  · next hmem => exact ⟨hmem, (Option.some.inj h).symm⟩
  · cases h

theorem elapse_of_step {dt : ℚ} (h : s.step (.elapse dt) = some s') :
    0 ≤ dt ∧ s' = { s with health := { s.health with
      clock := ⟨s.health.clock.monotonic + dt, s.health.clock.time + dt⟩ } } := by
  rw [step] at h
  split at h
  · next hdt => exact ⟨hdt, (Option.some.inj h).symm⟩
  · cases h

theorem beginRound_of_step (h : s.step .beginRound = some s') : (s.candidates = [] ∧ s.all ≠ []) ∧
    s' = { s with candidates := s.health.breaker.expiredOpen s.health.clock.monotonic } := by
  rw [step] at h
  split at h
  · next hc => exact ⟨hc, (Option.some.inj h).symm⟩
  · cases h

theorem retest_of_step {ok : Bool} (h : s.step (.retest ok) = some s') :
    ∃ url rest, s.candidates = url :: rest ∧ s' = { s.retested url ok with candidates := rest } := by
  rw [step] at h
  split at h
  · cases h
  · next url rest hc => exact ⟨url, rest, hc, (Option.some.inj h).symm⟩

end Step

def machine (p : Pool K) : Machine (Pool K) Op := ⟨p, step⟩

def twoProxies : ProxySources :=
  ⟨some [.text "http://10.0.0.1:8080", .text "http://10.0.0.2:8080"], []⟩

def noTor : TorUrls := ⟨[], List.nodup_nil⟩

def twoAlive : Pool Unit :=
  ⟨["http://10.0.0.1:8080", "http://10.0.0.2:8080"], ∅, .empty, .empty, 0,
    ⟨.empty, .new 1 60 3600, ⟨0, 0⟩⟩, [], []⟩

theorem start_twoAlive :
    start Unit twoProxies noTor (fun _ => true) 1 60 3600 0 ⟨0, 0⟩ = some twoAlive := by
  decide +kernel

end Pool

end ProxySplit
