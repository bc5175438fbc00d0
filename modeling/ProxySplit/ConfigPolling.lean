import ProxySplit.HotReload
import ProxySplit.Lib.Polling

namespace ProxySplit.HotReload

open Lib

abbrev ConfigFile := Version ℚ (Option Document)

/-- `_watch_with_polling` beside the server that it reloads.  The reader of the file looks when `_safe_mtime`
is called, and fetches when `load_config` reads the file, where the file may be another one already.  The task
is not `running` after a reload has raised. -/
structure Watcher where
  poller : Poller ℚ (Option Document)
  running : Bool
  server : Server

namespace Watcher

inductive Label
  | file (e : Poller.Event ℚ (Option Document))
  | getLimiter (url : Url)
  | removeLimiter (url : Url)

def loaded (file : Option ConfigFile) : Option Document := file.bind Version.value

def isTask : Poller.Event ℚ (Option Document) → Bool
  | .look | .fetch => true
  | .write _ | .remove => false

def told (w : Watcher) : Poller.Event ℚ (Option Document) → Option Server
  | .fetch => w.server.triggerReload (loaded w.poller.cell)
  | _ => some w.server

def step (w : Watcher) : Label → Option Watcher
  | .file e =>
    if isTask e = true ∧ w.running = false then none
    else (w.poller.step e).map fun poller =>
      match w.told e with
      | some server => ⟨poller, w.running, server⟩
      | none => ⟨poller, false, w.server⟩
  | .getLimiter url => some { w with server := w.server.getLimiter url }
  | .removeLimiter url => some { w with server := { w.server with limiters := w.server.limiters.erase url } }

def machine (first : Option ConfigFile) (server : Server) : Machine Watcher Label :=
  ⟨⟨Poller.start first, true, server⟩, step⟩

/-- No two versions of the file have one modification time. -/
def Fresh (first : Option ConfigFile) (w : Watcher) : Label → Prop
  | .file e => w.poller.Fresh first e
  | _ => True

instance (first : Option ConfigFile) (w : Watcher) (l : Label) : Decidable (Fresh first w l) :=
  match l with
  | .file e => inferInstanceAs (Decidable (w.poller.Fresh first e))
  | .getLimiter _ | .removeLimiter _ => inferInstanceAs (Decidable True)

def raises (file : Option Document) : Bool :=
  match file.map loadConfig with
  | some (.mapping _ true) | some (.value _) => true
  | _ => false

/-- `_apply_config_update` gets to its end with these live settings. -/
def Fits (sized : Bool) (live : Config) : Prop :=
  (∀ v ∈ live.get? "proxy_rps", v.float.isSome) ∧
    (sized → ∀ v ∈ live.get? "adaptive_target_ms", v.float.isSome)

instance (sized : Bool) (live : Config) : Decidable (Fits sized live) := inferInstanceAs (Decidable (_ ∧ _))

def takeOver (sized : Bool) (c : Config) (file : Option Document) : Config :=
  match Server.settingsOf file with
  | none => c
  | some new => if Fits sized (new.restrict liveKeys) then c.update (new.restrict liveKeys) else c

section Reload

variable {s : Server} {c new : Config} {key : String} {v : Yaml}

theorem isSome_rateAfter_iff (s : Server) (new : Config) :
    (s.rateAfter new).isSome ↔ ∀ v ∈ new.get? "proxy_rps", v.float.isSome := by
  unfold Server.rateAfter
  split
  · next h => simp [h]
  · next v h => simp [h]

theorem fits_iff (s : Server) (new : Config) :
    Fits s.sizer.isSome new ↔ (s.rateAfter new).isSome ∧ s.TargetFits new := by
  rw [isSome_rateAfter_iff]
  rfl

theorem triggerReload_eq_none_iff (s : Server) (file : Option Document) :
    s.triggerReload file = none ↔ raises file = true := by
  unfold Server.triggerReload raises
  rcases file.map loadConfig with _ | ⟨new, _ | _⟩ | v
  · simp
  · simp
  · simp
  · simp

/-- `max_workers: 20` beside `on: x`, where the key is `True`. -/
example : raises (some (.mapping (Server.setting "max_workers" (.int 20)) true)) = true := by decide +kernel

theorem applyConfigUpdate_spec (s : Server) (new : Config) :
    (s.applyConfigUpdate new).1.config = (if Fits s.sizer.isSome new then s.config.update new else s.config) ∧
      (s.applyConfigUpdate new).1.sizer.isSome = s.sizer.isSome := by
  rcases s.applyConfigUpdate_cases new with ⟨hrate, heq⟩ |
    ⟨rps, hrate, ⟨hstops, heq⟩ | ⟨s₁, hfits, htarget, heq⟩⟩
  · rw [heq, if_neg fun hfits => ?_]
    · exact ⟨rfl, rfl⟩
    · have hsome := ((fits_iff s _).mp hfits).1
      rw [hrate] at hsome
      cases hsome
  · rw [heq, if_neg fun hfits => hstops ((fits_iff s _).mp hfits).2]
    exact ⟨rfl, rfl⟩
  · rw [heq, if_pos ((fits_iff s _).mpr ⟨Option.isSome_of_eq_some hrate, hfits⟩)]
    refine ⟨rfl, ?_⟩
    have hsizer := congrArg Option.isSome (Server.applyTarget_target htarget)
    rw [Option.isSome_map] at hsizer
    rw [hsizer, Server.targetAfter]
    split
    · rw [Option.isSome_map]
    · next v hv =>
      cases hs : s.sizer with
      | none => rfl
      | some sizer =>
        have hfloat := hfits (by rw [hs]; rfl) v hv
        simpa using hfloat

theorem triggerReload_spec (s : Server) (file : Option Document) :
    ((s.triggerReload file).getD s).config = takeOver s.sizer.isSome s.config file ∧
      ((s.triggerReload file).getD s).sizer.isSome = s.sizer.isSome := by
  unfold takeOver
  cases hfile : Server.settingsOf file with
  | none =>
    rw [Server.triggerReload_of_none hfile]
    exact ⟨rfl, rfl⟩
  | some new =>
    rw [Server.triggerReload_of_settings hfile]
    exact applyConfigUpdate_spec s _

end Reload

structure Merged (s₀ : Server) (w : Watcher) : Prop where
  config : w.server.config = (w.poller.fetched.map loaded).foldl (takeOver s₀.sizer.isSome) s₀.config
  sized : w.server.sizer.isSome = s₀.sizer.isSome
  ended : w.running = false ↔ ∃ file ∈ w.poller.fetched, raises (loaded file) = true
  last : ∀ file ∈ w.poller.fetched.dropLast, raises (loaded file) = false

variable {first : Option ConfigFile} {s₀ : Server} {w w' : Watcher} {l : Label}

/-- A step is one of the file, of which only a fetch reaches the server, or leaves file and config alone. -/
theorem step_cases (h : w.step l = some w') :
    (∃ e, l = .file e ∧ w.poller.step e = some w'.poller ∧
      ((e = .fetch ∧ w.running = true ∧ w'.server = (w.server.triggerReload (loaded w.poller.cell)).getD w.server ∧
        w'.running = !raises (loaded w.poller.cell)) ∨
      (e ≠ .fetch ∧ w'.server = w.server ∧ w'.running = w.running))) ∨
      w'.poller = w.poller ∧ w'.running = w.running ∧ w'.server.config = w.server.config ∧
        w'.server.sizer = w.server.sizer := by
  cases l with
  | file e =>
    obtain ⟨htask, h⟩ := Option.ite_none_left_eq_some.mp h
    obtain ⟨poller, hpoller, hw'⟩ := Option.map_eq_some_iff.mp h
    refine .inl ⟨e, rfl, ?_⟩
    cases e with
    | fetch =>
      have hrunning : w.running = true := by simpa [isTask] using htask
      have hraises := triggerReload_eq_none_iff w.server (loaded w.poller.cell)
      cases htold : w.server.triggerReload (loaded w.poller.cell) with
      | some server =>
        rw [told, htold] at hw'
        rw [htold] at hraises
        subst hw'
        have hfalse : raises (loaded w.poller.cell) = false :=
          Bool.eq_false_iff.mpr fun h => by cases hraises.mpr h
        exact ⟨hpoller, .inl ⟨rfl, hrunning, rfl, by rw [hrunning, hfalse]; rfl⟩⟩
      | none =>
        rw [told, htold] at hw'
        subst hw'
        exact ⟨hpoller, .inl ⟨rfl, hrunning, rfl, by rw [hraises.mp htold]; rfl⟩⟩
    | write | remove | look =>
      subst hw'
      exact ⟨hpoller, .inr ⟨nofun, rfl, rfl⟩⟩
  | getLimiter url =>
    cases h
    right
    dsimp only [Server.getLimiter]
    split
    · exact ⟨rfl, rfl, rfl, rfl⟩
    · exact ⟨rfl, rfl, rfl, rfl⟩
  | removeLimiter url =>
    cases h
    exact .inr ⟨rfl, rfl, rfl, rfl⟩

theorem exists_raises_concat {files : List (Option ConfigFile)} {file : Option ConfigFile}
    (h : ∀ f ∈ files, raises (loaded f) = false) :
    (∃ f ∈ files ++ [file], raises (loaded f) = true) ↔ raises (loaded file) = true := by
  constructor
  · rintro ⟨f, hf, hraises⟩
    rcases List.mem_append.mp hf with hf | hf
    · rw [h f hf] at hraises
      cases hraises
    · rwa [List.mem_singleton.mp hf] at hraises
  · exact fun hraises => ⟨file, List.mem_append_right _ (.head _), hraises⟩

theorem Merged.fetch (h : Merged s₀ w) (hrunning : w.running = true)
    (hfetched : w'.poller.fetched = w.poller.fetched ++ [w.poller.cell])
    (hserver : w'.server = (w.server.triggerReload (loaded w.poller.cell)).getD w.server)
    (hended : w'.running = !raises (loaded w.poller.cell)) : Merged s₀ w' := by
  obtain ⟨hconfig, hsized⟩ := triggerReload_spec w.server (loaded w.poller.cell)
  have hbefore : ∀ file ∈ w.poller.fetched, raises (loaded file) = false := by
    intro file hfile
    refine Bool.eq_false_iff.mpr fun hraises => ?_
    rw [h.ended.mpr ⟨file, hfile, hraises⟩] at hrunning
    cases hrunning
  constructor
  case config =>
    rw [hserver, hconfig, hfetched, List.map_append, List.foldl_append, ← h.config, h.sized]
    rfl
  case sized => rw [hserver, hsized, h.sized]
  case ended =>
    rw [hended, hfetched, Bool.not_eq_false', exists_raises_concat hbefore]
  case last =>
    rw [hfetched, List.dropLast_concat]
    exact hbefore

theorem Merged.step (h : Merged s₀ w) (hstep : w.step l = some w') : Merged s₀ w' := by
  rcases step_cases hstep with ⟨e, -, hpoller, hcase⟩ | ⟨hpoller, hrunning, hconfig, hsizer⟩
  · rcases Poller.fetched_of_step hpoller with ⟨rfl, hfetched⟩ | ⟨hne, hfetched⟩
    · obtain ⟨-, hrunning, hserver, hended⟩ := hcase.resolve_right fun hcase => hcase.1 rfl
      exact h.fetch hrunning hfetched hserver hended
    · obtain ⟨-, hserver, hrunning⟩ := hcase.resolve_left fun hcase => hne hcase.1
      exact ⟨by rw [hserver, hfetched, h.config], by rw [hserver, h.sized],
        by rw [hrunning, hfetched, h.ended], by rw [hfetched]; exact h.last⟩
  · exact ⟨by rw [hconfig, hpoller, h.config], by rw [hsizer, h.sized],
      by rw [hrunning, hpoller, h.ended], by rw [hpoller]; exact h.last⟩

end Watcher

end ProxySplit.HotReload
