import ProxySplit.Lib.Machine
import ProxySplit.ProxyStats
import ProxySplit.PyFloat

namespace ProxySplit.HotReload

open Lib

/-- A value of a setting.  Numbers compare as in Python, where `True` is 1 and `2` is `2.0`.  Of lists and
mappings only the texts of their items are told apart. -/
inductive Yaml
  | null
  | number (x : PyFloat)
  | text (s : String)
  | collection (items : List String)
  deriving DecidableEq

namespace Yaml

def int (n : Int) : Yaml := .number (.fin n)

def bool (b : Bool) : Yaml := .number (.fin (if b then 1 else 0))

/-- `float(v)`.  `none` is a `TypeError`, a `ValueError` or, for an integer that is too large, an
`OverflowError`. -/
def float : Yaml → Option PyFloat
  | .number (.fin q) => if |q| < PyFloat.overflow then some (.ofRat q) else none
  | .number x => some x
  | .text s => PyFloat.parse s.toList
  | .null | .collection _ => none

def truth : Yaml → Bool
  | .null => false
  | .number x => x ≠ .fin 0
  | .text s => s ≠ ""
  | .collection items => items ≠ []

end Yaml

abbrev Config := Dict String Yaml

def Config.getD (c : Config) (key : String) (default : Yaml) : Yaml := (c.get? key).getD default

/-- What `yaml.safe_load` makes of a file: a mapping, with keys other than texts or without, or a value. -/
inductive Document
  | mapping (settings : Config) (otherKeys : Bool)
  | value (v : Yaml)
  deriving DecidableEq

/-- `load_config`, for a file that can be parsed. -/
def loadConfig : Document → Document
  | .mapping settings otherKeys => .mapping settings otherKeys
  | .value v => if v.truth then .value v else .mapping .empty false

def liveKeys : List String :=
  ["proxy_rps", "adaptive_target_ms", "adaptive_chunk_min", "adaptive_chunk_max", "chunk_timeout",
    "connect_timeout", "head_timeout", "request_timeout", "chunk_retries", "max_workers",
    "ban_threshold", "ban_base_delay", "ban_max_delay", "check_interval", "cache_ttl",
    "cache_max_body_mb", "prefetch_ahead", "exclude_window", "race_first_chunk",
    "weighted_selection", "per_proxy_chunk_size", "retry_budget", "log_level", "prewarm_top_n",
    "prewarm_url", "warmup_url"]

/-- `RequestConfig`, as the values stand in the config. -/
structure RequestConfig where
  staticChunkSize : Yaml
  maxWorkers : Yaml
  chunkRetries : Yaml
  chunkProxy : Yaml
  chunkTimeout : Yaml
  connectTimeout : Yaml
  headTimeout : Yaml
  weighted : Yaml
  useStreaming : Yaml
  prefetchAhead : Yaml
  raceFirstChunk : Yaml
  excludeWindow : Yaml
  retryBudgetTotal : Yaml
  perProxyChunks : Yaml
  chunkSizeMin : Yaml
  chunkSizeMax : Yaml
  prewarmUrl : Yaml
  prewarmTopN : Yaml
  deriving DecidableEq

def RequestConfig.fromConfig (c : Config) : RequestConfig where
  staticChunkSize := c.getD "chunk_size" (.int 524288)
  maxWorkers := c.getD "max_workers" (.int 10)
  chunkRetries := c.getD "chunk_retries" (.int 2)
  chunkProxy := c.getD "chunk_proxy" (.bool true)
  chunkTimeout := c.getD "chunk_timeout" (.int 60)
  connectTimeout := c.getD "connect_timeout" (.int 10)
  headTimeout := c.getD "head_timeout" (.int 15)
  weighted := c.getD "weighted_selection" (.bool true)
  useStreaming := c.getD "streaming" (.bool true)
  prefetchAhead := c.getD "prefetch_ahead" (.int 2)
  raceFirstChunk := c.getD "race_first_chunk" (.bool false)
  excludeWindow := c.getD "exclude_window" (.int 3)
  retryBudgetTotal := c.getD "retry_budget" (.int 0)
  perProxyChunks := c.getD "per_proxy_chunk_size" (.bool true)
  chunkSizeMin := c.getD "adaptive_chunk_min" (.int 65536)
  chunkSizeMax := c.getD "adaptive_chunk_max" (.int 4194304)
  prewarmUrl := c.getD "prewarm_url" (c.getD "warmup_url" (.text ""))
  prewarmTopN := c.getD "prewarm_top_n" (.int 5)

structure BreakerSettings where
  threshold : Yaml
  baseDelay : Yaml
  maxDelay : Yaml
  deriving DecidableEq

structure CacheSettings where
  defaultTtl : Yaml
  maxBodyMb : Yaml
  deriving DecidableEq

structure SizerSettings where
  targetMs : Yaml
  minimum : Yaml
  maximum : Yaml
  deriving DecidableEq

/-- What `main` copies out of its config when it makes the handler, the breaker and the cache. -/
structure Copies where
  request : RequestConfig
  breaker : BreakerSettings
  cache : CacheSettings
  deriving DecidableEq

def Copies.fromConfig (c : Config) : Copies where
  request := .fromConfig c
  breaker := ⟨c.getD "ban_threshold" (.int 5), c.getD "ban_base_delay" (.int 60),
    c.getD "ban_max_delay" (.int 3600)⟩
  cache := ⟨c.getD "cache_ttl" (.int 300), c.getD "cache_max_body_mb" (.int 64)⟩

def SizerSettings.fromConfig (c : Config) : Option SizerSettings :=
  if (c.getD "adaptive_chunk" (.bool true)).truth then
    some ⟨c.getD "adaptive_target_ms" (.int 800), c.getD "adaptive_chunk_min" (.int 65536),
      c.getD "adaptive_chunk_max" (.int 4194304)⟩
  else none

/-- A running server as far as its settings go.  `limiters` has the rate that each bucket was made with. -/
structure Server where
  config : Config
  copies : Copies
  sizer : Option SizerSettings
  globalRps : PyFloat
  limiters : Dict Url PyFloat
  deriving DecidableEq

namespace Server

/-- `main`, which does not get past a `proxy_rps` that is not a number. -/
def start (c : Config) : Option Server :=
  (c.getD "proxy_rps" (.int 0)).float.map fun rps =>
    ⟨c, .fromConfig c, SizerSettings.fromConfig c, rps, .empty⟩

/-- The first part of `_apply_config_update`; `none` where it raises. -/
def applyRps (s : Server) (new : Config) : Option Server :=
  match new.get? "proxy_rps" with
  | none => some s
  | some v => v.float.map fun rps => { s with globalRps := rps }

def applyTarget (s : Server) (new : Config) : Option Server :=
  match s.sizer, new.get? "adaptive_target_ms" with
  | some sizer, some v =>
    v.float.map fun target => { s with sizer := some { sizer with targetMs := .number target } }
  | _, _ => some s

/-- `_apply_config_update`, and whether it got to its end. -/
def applyConfigUpdate (s : Server) (new : Config) : Server × Bool :=
  match s.applyRps new with
  | none => (s, false)
  | some s =>
    match s.applyTarget new with
    | none => (s, false)
    | some s => ({ s with config := s.config.update new }, true)

/-- `_trigger_reload`, with the file as far as it can be parsed.  It raises (`none`) where nothing catches it:
unknown keys that are no texts cannot be joined for the log, and what is no mapping has no items. -/
def triggerReload (s : Server) (file : Option Document) : Option Server :=
  match file.map loadConfig with
  | none => some s
  | some (.mapping new false) =>
    let live := new.restrict liveKeys
    some (if live.entries = [] then s else (s.applyConfigUpdate live).1)
  | some (.mapping _ true) | some (.value _) => none

def getLimiter (s : Server) (url : Url) : Server :=
  match s.limiters.get? url with
  | some _ => s
  | none => { s with limiters := s.limiters.set url s.globalRps }

inductive Label
  | reload (file : Option Document)
  | getLimiter (url : Url)
  | removeLimiter (url : Url)

def step (s : Server) : Label → Option Server
  | .reload file => some ((s.triggerReload file).getD s)
  | .getLimiter url => some (s.getLimiter url)
  | .removeLimiter url => some { s with limiters := s.limiters.erase url }

def machine (s : Server) : Machine Server Label := ⟨s, step⟩

/-- What the next request and the next fetch through a proxy go by.  The deadline of a request and the two
settings of a revalidation are read from `config` when they are needed. -/
structure Used where
  copies : Copies
  requestTimeout : Yaml
  revalidationTimeout : Yaml
  revalidationWeighted : Yaml
  sizer : Option SizerSettings
  rps : PyFloat
  newProxyRps : PyFloat
  deriving DecidableEq

def used (s : Server) (url : Url) : Used where
  copies := s.copies
  requestTimeout := s.config.getD "request_timeout" (.int 0)
  revalidationTimeout := s.config.getD "head_timeout" (.int 15)
  revalidationWeighted := s.config.getD "weighted_selection" (.bool true)
  sizer := s.sizer
  rps := (s.limiters.get? url).getD s.globalRps
  newProxyRps := s.globalRps

/-- A server started with the config as it has been merged would go by the same settings. -/
def LikeRestarted (s : Server) : Prop :=
  ∃ fresh, start s.config = some fresh ∧ ∀ url, s.used url = fresh.used url

def rateAfter (s : Server) (new : Config) : Option PyFloat :=
  match new.get? "proxy_rps" with
  | none => some s.globalRps
  | some v => v.float

def TargetFits (s : Server) (new : Config) : Prop :=
  s.sizer.isSome → ∀ v ∈ new.get? "adaptive_target_ms", v.float.isSome

/-- The target of the sizer, if there is one, comes as a number that a `float` can be. -/
def TargetPlain (s : Server) (new : Config) : Prop :=
  s.sizer.isSome → ∀ v ∈ new.get? "adaptive_target_ms", v.float.map .number = some v

/-- What a reload with these settings may bring.  If it goes through, the settings that were copied come out as
they are, the buckets there are have the new rate, and the target of the sizer is a plain number.  If it stops
halfway, it has left the rate alone. -/
def NeutralSettings (s : Server) (new : Config) : Prop :=
  ∀ rps ∈ s.rateAfter (new.restrict liveKeys),
    (s.TargetFits (new.restrict liveKeys) →
      Copies.fromConfig (s.config.update (new.restrict liveKeys)) = .fromConfig s.config ∧
      (∀ url, ∀ r ∈ s.limiters.get? url, r = rps) ∧ s.TargetPlain (new.restrict liveKeys)) ∧
    (¬ s.TargetFits (new.restrict liveKeys) → rps = s.globalRps)

def settingsOf (file : Option Document) : Option Config :=
  match file.map loadConfig with
  | some (.mapping new false) => some new
  | _ => none

def Neutral (s : Server) : Label → Prop
  | .reload file => ∀ new ∈ settingsOf file, s.NeutralSettings new
  | _ => True

def targetAfter (s : Server) (new : Config) : Option Yaml :=
  match new.get? "adaptive_target_ms" with
  | none => s.sizer.map SizerSettings.targetMs
  | some v => s.sizer.bind fun _ => v.float.map .number

/-- Applying `new` changed nothing. -/
structure Untouched (s s' : Server) : Prop where
  rps : s'.globalRps = s.globalRps
  target : s'.sizer.map SizerSettings.targetMs = s.sizer.map SizerSettings.targetMs
  config : s'.config = s.config

/-- Applying `new` brought each of its values. -/
structure Reflects (s : Server) (new : Config) (s' : Server) : Prop where
  rps : s.rateAfter new = some s'.globalRps
  target : s'.sizer.map SizerSettings.targetMs = s.targetAfter new
  config : s'.config = s.config.update new

/-- A reload changes nothing if applying its settings raises, and everything otherwise. -/
def Atomic (s : Server) (new : Config) : Prop :=
  ∃ s', s.triggerReload (some (.mapping new false)) = some s' ∧
    ((s.applyConfigUpdate (new.restrict liveKeys)).2 = false → s.Untouched s') ∧
    ((s.applyConfigUpdate (new.restrict liveKeys)).2 = true → s.Reflects (new.restrict liveKeys) s')

variable {s s' fresh s₀ : Server} {c new : Config} {lab : Label}

theorem likeRestarted_iff : s.LikeRestarted ↔
    (s.config.getD "proxy_rps" (.int 0)).float = some s.globalRps ∧
      s.copies = .fromConfig s.config ∧ s.sizer = SizerSettings.fromConfig s.config ∧
      ∀ url, ∀ r ∈ s.limiters.get? url, r = s.globalRps := by
  constructor
  · rintro ⟨fresh, hfresh, hused⟩
    obtain ⟨rps, hrps, rfl⟩ := Option.map_eq_some_iff.mp hfresh
    have hnew : s.globalRps = rps := congrArg Used.newProxyRps (hused "")
    refine ⟨hnew ▸ hrps, congrArg Used.copies (hused ""), congrArg Used.sizer (hused ""), ?_⟩
    intro url r hr
    have hrate : (s.limiters.get? url).getD s.globalRps = rps := congrArg Used.rps (hused url)
    rw [hr] at hrate
    exact hrate.trans hnew.symm
  · rintro ⟨hrps, hcopies, hsizer, hlimiters⟩
    refine ⟨_, Option.map_eq_some_iff.mpr ⟨s.globalRps, hrps, rfl⟩, fun url => ?_⟩
    have hrate : (s.limiters.get? url).getD s.globalRps = s.globalRps := by
      cases hget : s.limiters.get? url with
      | none => rfl
      | some r => exact hlimiters url r hget
    simp [used, hcopies, hsizer, hrate]

theorem applyRps_eq (s : Server) (new : Config) :
    s.applyRps new = (s.rateAfter new).map fun rps => { s with globalRps := rps } := by
  unfold applyRps rateAfter
  split
  · rfl
  · rfl

theorem applyTarget_eq_none : s.applyTarget new = none ↔ ¬ s.TargetFits new := by
  unfold applyTarget TargetFits
  cases hsizer : s.sizer with
  | none => simp
  | some sizer =>
    cases hv : new.get? "adaptive_target_ms" with
    | none => simp
    | some v => simp

theorem applyTarget_eq (h : s.applyTarget new = some s') : s' = { s with sizer := s'.sizer } := by
  unfold applyTarget at h
  split at h
  · obtain ⟨target, -, rfl⟩ := Option.map_eq_some_iff.mp h
    rfl
  · cases h
    rfl

theorem applyTarget_target (h : s.applyTarget new = some s') :
    s'.sizer.map SizerSettings.targetMs = s.targetAfter new := by
  unfold applyTarget at h
  unfold targetAfter
  split at h
  · next sizer v hsizer hv =>
    obtain ⟨target, hfloat, rfl⟩ := Option.map_eq_some_iff.mp h
    simp [hsizer, hv, hfloat]
  · next hnone =>
    cases h
    cases hv : new.get? "adaptive_target_ms" with
    | none => rfl
    | some v =>
      cases hsizer : s.sizer with
      | none => rfl
      | some sizer => exact absurd hv (hnone sizer v hsizer)

theorem applyConfigUpdate_cases (s : Server) (new : Config) :
    (s.rateAfter new = none ∧ s.applyConfigUpdate new = (s, false)) ∨
    ∃ rps, s.rateAfter new = some rps ∧
      ((¬ s.TargetFits new ∧ s.applyConfigUpdate new = ({ s with globalRps := rps }, false)) ∨
      ∃ s₁, s.TargetFits new ∧ ({ s with globalRps := rps }).applyTarget new = some s₁ ∧
        s.applyConfigUpdate new = ({ s₁ with config := s.config.update new }, true)) := by
  cases hrate : s.rateAfter new with
  | none => exact .inl ⟨rfl, by simp [applyConfigUpdate, applyRps_eq, hrate]⟩
  | some rps =>
    refine .inr ⟨rps, rfl, ?_⟩
    have hfits : ({ s with globalRps := rps }).TargetFits new ↔ s.TargetFits new := Iff.rfl
    cases htarget : ({ s with globalRps := rps }).applyTarget new with
    | none =>
      refine .inl ⟨hfits.not.mp (applyTarget_eq_none.mp htarget), ?_⟩
      simp [applyConfigUpdate, applyRps_eq, hrate, htarget]
    | some s₁ =>
      refine .inr ⟨s₁, ?_, rfl, ?_⟩
      · by_contra hnot
        rw [applyTarget_eq_none.mpr (hfits.not.mpr hnot)] at htarget
        cases htarget
      · have hconfig : s₁.config = s.config := by rw [applyTarget_eq htarget]
        simp [applyConfigUpdate, applyRps_eq, hrate, htarget, hconfig]

theorem getD_update_of_notMem (c new : Config) {key : String} (h : key ∉ liveKeys) (d : Yaml) :
    Config.getD (c.update (new.restrict liveKeys)) key d = c.getD key d := by
  rw [Config.getD, Dict.get?_update, Dict.get?_restrict_of_notMem _ h]
  rfl

theorem sizer_iff (hsizer : s.sizer = SizerSettings.fromConfig s.config)
    (htarget : s.applyTarget (new.restrict liveKeys) = some s')
    (hcopies : Copies.fromConfig (s.config.update (new.restrict liveKeys)) = .fromConfig s.config) :
    s'.sizer = SizerSettings.fromConfig (s.config.update (new.restrict liveKeys)) ↔
      s.TargetPlain (new.restrict liveKeys) := by
  have hmin : Config.getD (s.config.update (new.restrict liveKeys)) "adaptive_chunk_min" (.int 65536) =
      s.config.getD "adaptive_chunk_min" (.int 65536) :=
    congrArg (fun k : Copies => k.request.chunkSizeMin) hcopies
  have hmax : Config.getD (s.config.update (new.restrict liveKeys)) "adaptive_chunk_max" (.int 4194304) =
      s.config.getD "adaptive_chunk_max" (.int 4194304) :=
    congrArg (fun k : Copies => k.request.chunkSizeMax) hcopies
  have hon : Config.getD (s.config.update (new.restrict liveKeys)) "adaptive_chunk" (.bool true) = _ :=
    getD_update_of_notMem s.config new (by decide) _
  have hgoal : Config.getD (s.config.update (new.restrict liveKeys)) "adaptive_target_ms" (.int 800) =
      (((new.restrict liveKeys).get? "adaptive_target_ms").or
        (s.config.get? "adaptive_target_ms")).getD (.int 800) := by
    rw [Config.getD, Dict.get?_update]
  unfold SizerSettings.fromConfig at hsizer ⊢
  rw [hmin, hmax, hon, hgoal]
  unfold applyTarget at htarget
  split at htarget
  · next sizer v hs hv =>
    obtain ⟨target, hfloat, rfl⟩ := Option.map_eq_some_iff.mp htarget
    rw [hs] at hsizer
    split at hsizer
    · next htruth =>
      cases hsizer
      rw [if_pos htruth, TargetPlain, hs, hv]
      simp [hfloat]
    · cases hsizer
  · next hnone =>
    cases htarget
    rw [TargetPlain, hsizer]
    split
    · next htruth =>
      rw [if_pos htruth] at hsizer
      cases hv : (new.restrict liveKeys).get? "adaptive_target_ms" with
      | none => simp [Config.getD]
      | some v => exact absurd hv (hnone _ v hsizer)
    · simp

theorem getD_proxy_rps (s : Server) (new : Config) :
    (Config.getD (s.config.update new) "proxy_rps" (.int 0)).float =
      match new.get? "proxy_rps" with
      | none => (s.config.getD "proxy_rps" (.int 0)).float
      | some v => v.float := by
  rw [Config.getD, Dict.get?_update]
  cases new.get? "proxy_rps" with
  | none => rfl
  | some v => rfl

theorem LikeRestarted.applied_iff (h : s.LikeRestarted) {rps : PyFloat}
    (hrate : s.rateAfter (new.restrict liveKeys) = some rps)
    (htarget : ({ s with globalRps := rps }).applyTarget (new.restrict liveKeys) = some s') :
    LikeRestarted { s' with config := s.config.update (new.restrict liveKeys) } ↔
      Copies.fromConfig (s.config.update (new.restrict liveKeys)) = .fromConfig s.config ∧
      (∀ url, ∀ r ∈ s.limiters.get? url, r = rps) ∧ s.TargetPlain (new.restrict liveKeys) := by
  obtain ⟨hold, hcopies, hsizer, hlimiters⟩ := likeRestarted_iff.mp h
  have hs' := applyTarget_eq htarget
  have hnewRps : s'.globalRps = rps := by rw [hs']
  have hnewCopies : s'.copies = s.copies := by rw [hs']
  have hnewLimiters : s'.limiters = s.limiters := by rw [hs']
  have hconfigRps : (Config.getD (s.config.update (new.restrict liveKeys)) "proxy_rps" (.int 0)).float =
      some rps := by
    rw [getD_proxy_rps, ← hrate, rateAfter]
    split
    · next hnone => rw [hold]
    · rfl
  rw [likeRestarted_iff]
  simp only [hnewRps, hnewCopies, hnewLimiters, hconfigRps, true_and, hcopies]
  constructor
  · rintro ⟨hsame, hs, hbuckets⟩
    exact ⟨hsame.symm, hbuckets,
      (sizer_iff (s := { s with globalRps := rps }) hsizer htarget hsame.symm).mp hs⟩
  · rintro ⟨hsame, hbuckets, htext⟩
    exact ⟨hsame.symm,
      (sizer_iff (s := { s with globalRps := rps }) hsizer htarget hsame).mpr htext, hbuckets⟩

theorem LikeRestarted.reload_iff (h : s.LikeRestarted) (new : Config) :
    (s.applyConfigUpdate (new.restrict liveKeys)).1.LikeRestarted ↔ s.NeutralSettings new := by
  obtain ⟨hold, hcopies, hsizer, hlimiters⟩ := likeRestarted_iff.mp h
  rcases s.applyConfigUpdate_cases (new.restrict liveKeys) with ⟨hrate, heq⟩ |
    ⟨rps, hrate, ⟨hstops, heq⟩ | ⟨s₁, hfits, htarget, heq⟩⟩
  · rw [heq]
    refine iff_of_true h fun rps hrps => ?_
    rw [hrate] at hrps
    cases hrps
  · rw [heq, likeRestarted_iff]
    simp only [NeutralSettings, hrate, Option.mem_some_iff, forall_eq', hstops, false_implies, true_and,
      not_false_eq_true, true_implies]
    constructor
    · rintro ⟨hrps, -⟩
      exact Option.some.inj (hrps.symm.trans hold)
    · rintro rfl
      exact ⟨hold, hcopies, hsizer, hlimiters⟩
  · rw [heq, h.applied_iff hrate htarget]
    simp only [NeutralSettings, hrate, Option.mem_some_iff, forall_eq', hfits, true_implies, not_true_eq_false,
      false_implies, and_true]

theorem applyConfigUpdate_of_nil (s : Server) (h : new.entries = []) :
    (s.applyConfigUpdate new).1 = s := by
  have hget : ∀ key, new.get? key = none := fun key => by rw [Dict.get?, h]; rfl
  have hupdate : s.config.update new = s.config := by rw [Dict.update, h]; rfl
  have htarget : s.applyTarget new = some s := by
    unfold applyTarget
    rw [hget]
    split
    · next h => cases h
    · rfl
  simp [applyConfigUpdate, applyRps, hget, htarget, hupdate]

theorem triggerReload_of_settings {file : Option Document} (h : settingsOf file = some new) :
    s.triggerReload file = some (s.applyConfigUpdate (new.restrict liveKeys)).1 := by
  unfold settingsOf at h
  unfold triggerReload
  split at h
  · next heq =>
    cases h
    rw [heq]
    dsimp only
    split
    · next hnil => rw [applyConfigUpdate_of_nil s hnil]
    · rfl
  · cases h

theorem triggerReload_of_none {file : Option Document} (h : settingsOf file = none) :
    (s.triggerReload file).getD s = s := by
  unfold settingsOf at h
  unfold triggerReload
  split
  · rfl
  · next heq =>
    rw [heq] at h
    cases h
  · rfl
  · rfl

theorem LikeRestarted.step_iff (h : s.LikeRestarted) (hstep : s.step lab = some s') :
    s'.LikeRestarted ↔ s.Neutral lab := by
  cases lab with
  | reload file =>
    cases hstep
    cases hfile : settingsOf file with
    | none =>
      rw [triggerReload_of_none hfile]
      exact iff_of_true h fun new hnew => by rw [hfile] at hnew; cases hnew
    | some new =>
      rw [triggerReload_of_settings hfile, Option.getD_some, h.reload_iff new, Neutral, hfile]
      simp
  | getLimiter url =>
    cases hstep
    obtain ⟨hold, hcopies, hsizer, hlimiters⟩ := likeRestarted_iff.mp h
    refine iff_of_true ?_ trivial
    unfold getLimiter
    split
    · exact h
    · refine likeRestarted_iff.mpr ⟨hold, hcopies, hsizer, fun u r hr => ?_⟩
      rw [Dict.get?_set] at hr
      split at hr
      · cases hr
        rfl
      · exact hlimiters u r hr
  | removeLimiter url =>
    cases hstep
    obtain ⟨hold, hcopies, hsizer, hlimiters⟩ := likeRestarted_iff.mp h
    refine iff_of_true (likeRestarted_iff.mpr ⟨hold, hcopies, hsizer, fun u r hr => ?_⟩) trivial
    rw [Dict.get?_erase] at hr
    split at hr
    · cases hr
    · exact hlimiters u r hr

theorem likeRestarted_of_start (h : start c = some s) : s.LikeRestarted := by
  obtain ⟨rps, hrps, rfl⟩ := Option.map_eq_some_iff.mp h
  exact likeRestarted_iff.mpr ⟨hrps, rfl, rfl, fun url r hr => by cases hr⟩

structure Kept (c : Config) (s : Server) : Prop where
  copies : s.copies = .fromConfig c
  starts : (start s.config).isSome

theorem Kept.applyConfigUpdate (h : Kept c s) (new : Config) : Kept c (s.applyConfigUpdate new).1 := by
  rcases s.applyConfigUpdate_cases new with ⟨-, heq⟩ | ⟨rps, hrate, ⟨-, heq⟩ | ⟨s₁, -, htarget, heq⟩⟩
  · rw [heq]
    exact h
  · rw [heq]
    exact ⟨h.copies, h.starts⟩
  · rw [heq]
    refine ⟨?_, ?_⟩
    · rw [applyTarget_eq htarget]
      exact h.copies
    · have hstarts := h.starts
      simp only [start, Option.isSome_map, getD_proxy_rps] at hstarts ⊢
      unfold rateAfter at hrate
      split
      · exact hstarts
      · next v hv =>
        rw [hv] at hrate
        exact Option.isSome_of_eq_some hrate

theorem kept_of_reachable (h₀ : start c = some s₀) (hs : (machine s₀).Reachable s) : Kept c s := by
  refine hs.invariant (I := Kept c) ?_ ?_
  · obtain ⟨rps, hrps, rfl⟩ := Option.map_eq_some_iff.mp h₀
    exact ⟨rfl, by simp [machine, start, hrps]⟩
  · intro s lab s' hI _ hstep
    cases lab with
    | reload file =>
      cases hstep
      cases hfile : settingsOf file with
      | none =>
        rw [triggerReload_of_none hfile]
        exact hI
      | some new =>
        rw [triggerReload_of_settings hfile]
        exact hI.applyConfigUpdate _
    | getLimiter url =>
      cases hstep
      unfold getLimiter
      split
      · exact hI
      · exact ⟨hI.copies, hI.starts⟩
    | removeLimiter url =>
      cases hstep
      exact ⟨hI.copies, hI.starts⟩

theorem likeRestarted_of_reach (h₀ : start c = some s₀) (hs : (machine s₀).Reach Neutral s) :
    s.LikeRestarted :=
  hs.invariant (I := LikeRestarted) (likeRestarted_of_start h₀) fun _ _ _ hI hok hstep =>
    (hI.step_iff hstep).mpr hok

/-- The merged config always starts a server, and no reload reaches a copied setting.  The server goes by the
settings of a restarted one as long as its reloads are neutral, and no longer. -/
theorem likeRestarted_run_iff (c : Config) (s₀ : Server) (h₀ : start c = some s₀) (s : Server) :
    ((machine s₀).Reachable s → s.copies = .fromConfig c ∧ (start s.config).isSome) ∧
      ((machine s₀).Reach Neutral s → s.LikeRestarted ∧
        ∀ lab s', s.step lab = some s' → (s'.LikeRestarted ↔ s.Neutral lab)) := by
  refine ⟨fun hs => ?_, fun hs => ?_⟩
  · have hkept := kept_of_reachable h₀ hs
    exact ⟨hkept.copies, hkept.starts⟩
  · have hlike := likeRestarted_of_reach h₀ hs
    exact ⟨hlike, fun lab s' hstep => hlike.step_iff hstep⟩

def setting (key : String) (v : Yaml) : Config := Dict.empty.set key v

def defaults : Server := ⟨.empty, .fromConfig .empty, SizerSettings.fromConfig .empty, .fin 0, .empty⟩

theorem start_defaults : start .empty = some defaults := by decide +kernel

theorem likeRestarted_after_reload : ∃ s : Server, s.LikeRestarted ∧
    (s.used "http://10.0.0.1:8080").requestTimeout = .int 30 := by
  have hneutral : defaults.Neutral
      (.reload (some (.mapping (setting "request_timeout" (.int 30)) false))) := by
    rintro new hnew rps hrps
    cases hnew
    have hfits : defaults.TargetFits ((setting "request_timeout" (.int 30)).restrict liveKeys) := by
      intro _ v hv
      cases hv
    have hnone : ((setting "request_timeout" (.int 30)).restrict liveKeys).get? "adaptive_target_ms" =
        none := by decide +kernel
    refine ⟨fun _ => ⟨by decide +kernel, ?_, ?_⟩, fun hnot => absurd hfits hnot⟩
    · intro url r hr
      cases hr
    · intro _ v hv
      rw [hnone] at hv
      cases hv
  have hs := Machine.Reach.step (M := machine defaults) .init hneutral rfl
  exact ⟨_, ((likeRestarted_run_iff .empty defaults start_defaults _).2 hs).1, by decide +kernel⟩

/-- A reload raises `max_workers`, and requests go on with the number of the start. -/
theorem max_workers_not_reloaded : ¬ ∀ (c : Config) (s₀ s : Server), start c = some s₀ →
    (machine s₀).Reachable s → s.LikeRestarted := by
  intro h
  obtain ⟨s, hs, hold, hmerged⟩ := Machine.exists_reachable (M := machine defaults)
    (P := fun s => s.copies.request.maxWorkers = .int 10 ∧
      (Copies.fromConfig s.config).request.maxWorkers = .int 20)
    [.reload (some (.mapping (setting "max_workers" (.int 20)) false))] (by decide +kernel)
  have hcopies := (likeRestarted_iff.mp (h .empty defaults s start_defaults hs)).2.1
  rw [hcopies, hmerged] at hold
  exact absurd hold (by decide +kernel)

theorem untouched_iff (s : Server) (rps : PyFloat) :
    s.Untouched { s with globalRps := rps } ↔ rps = s.globalRps :=
  ⟨Untouched.rps, fun h => ⟨h, rfl, rfl⟩⟩

theorem reflects_of_applied {rps : PyFloat} (hrate : s.rateAfter new = some rps)
    (htarget : ({ s with globalRps := rps }).applyTarget new = some s') :
    s.Reflects new { s' with config := s.config.update new } where
  rps := by rw [hrate, applyTarget_eq htarget]
  target := by
    have hnew := applyTarget_target htarget
    exact hnew
  config := rfl

/-- What is applied is either all of the new values or none of them, unless the rate is one and the target is
not a number: then the new rate stays. -/
theorem atomic_iff (s : Server) (new : Config) :
    s.Atomic new ↔ s.TargetFits (new.restrict liveKeys) ∨
      ∀ rps ∈ s.rateAfter (new.restrict liveKeys), rps = s.globalRps := by
  have hreload : s.triggerReload (some (.mapping new false)) =
      some (s.applyConfigUpdate (new.restrict liveKeys)).1 := triggerReload_of_settings rfl
  simp only [Atomic, hreload, Option.some.injEq, exists_eq_left']
  rcases s.applyConfigUpdate_cases (new.restrict liveKeys) with ⟨hrate, heq⟩ |
    ⟨rps, hrate, ⟨hstops, heq⟩ | ⟨s₁, hfits, htarget, heq⟩⟩
  · rw [heq, hrate]
    exact iff_of_true ⟨fun _ => ⟨rfl, rfl, rfl⟩, fun h => (by cases h)⟩ (.inr fun rps h => by cases h)
  · rw [heq, hrate]
    simp only [hstops, false_or, Option.mem_some_iff, forall_eq', true_implies, Bool.false_eq_true,
      false_implies, and_true]
    exact s.untouched_iff rps
  · rw [heq]
    exact iff_of_true ⟨fun h => (by cases h), fun _ => reflects_of_applied hrate htarget⟩ (.inl hfits)

/-- The file has a new rate and a target that is a word.  The rate is taken over although the reload fails. -/
theorem rate_kept_by_failed_reload : ¬ ∀ (s : Server) (new : Config), s.Atomic new := by
  intro h
  have hatomic := h defaults ((setting "proxy_rps" (.int 5)).set "adaptive_target_ms" (.text "fast"))
  obtain ⟨s', hs', huntouched, -⟩ := hatomic
  have hrps := (huntouched (by decide +kernel)).rps
  cases hs'
  exact absurd hrps (by decide +kernel)

end Server

end ProxySplit.HotReload
