import ProxySplit.Lib.Latest
import ProxySplit.ProxyFile
import ProxySplit.PyBytes

namespace ProxySplit

open Lib

/-- A decoded JSON value.  A number comes with what `str` makes of it. -/
inductive Json
  | null
  | bool (b : Bool)
  | num (isZero : Bool) (text : List Char)
  | str (s : List Char)
  | arr (items : List Json)
  | obj (entries : List (List Char × Json))

namespace Json

def truthy : Json → Bool
  | null => false
  | bool b => b
  | num isZero _ => !isZero
  | str s => !s.isEmpty
  | arr items => !items.isEmpty
  | obj entries => !entries.isEmpty

def isStr (s : List Char) : Json → Bool
  | str t => t == s
  | _ => false

def get? (entries : List (List Char × Json)) (key : String) : Option Json :=
  (entries.find? fun e => e.1 == key.toList).map Prod.snd

def get (entries : List (List Char × Json)) (key : String) (default : Json) : Json :=
  (get? entries key).getD default

end Json

/-- What is not written out of Python: `json.loads`, which raises where there is no value, the `str` of a list
or a dict, and `str.lower`. -/
structure JsonText where
  loads : List Char → Option Json
  repr : Json → List Char
  lower : List Char → List Char

namespace FreeList

variable (py : JsonText)

def str : Json → List Char
  | .null => "None".toList
  | .bool true => "True".toList
  | .bool false => "False".toList
  | .num _ text => text
  | .str s => s
  | value => py.repr value

def address (item : List (List Char × Json)) : Json :=
  let value := Json.get item "proxy" .null
  let ip := Json.get item "ip" .null
  if value.truthy then value else if ip.truthy then ip else .str []

/-- `p` of an item that is a dict.  It raises for a protocol that is no string, and for an address in which
`":"` cannot be looked for or that cannot be stripped. -/
def dictText (item : List (List Char × Json)) : Option (List Char) :=
  match Json.get item "protocol" (.str "http".toList) with
  | .str proto =>
    let p := address item
    let port := Json.get item "port" (.str [])
    let url := py.lower proto ++ "://".toList ++ str py p ++ ':' :: str py port
    match p with
    | .str s => some (if s ≠ [] ∧ ':' ∉ s then url else s)
    | .arr items => if items.any (Json.isStr [':']) then none else some url
    | .obj entries => if (Json.get? entries ":").isSome then none else some url
    | _ => none
  | _ => none

/-- What an item adds to `downloaded`. -/
def itemTexts (item : Json) : Option (List (List Char)) :=
  let p := match item with
    | .obj item => dictText py item
    | item => some (str py item)
  p.map fun p => if p.isEmpty then [] else [PyText.strip p]

def textLines (raw : List Char) : List (List Char) :=
  let kept := (PyText.splitlines raw).filter fun l => !(PyText.strip l).isEmpty && !List.isPrefixOf ['#'] l
  kept.map PyText.strip

/-- What `data["proxies"]` is iterated over, if it can be. -/
def items : Json → Option (List Json)
  | .arr items => some items
  | .str s => some (s.map fun c => .str [c])
  | .obj entries => some (entries.map fun e => .str e.1)
  | _ => none

/-- `downloaded` for this answer, `none` where something raises. -/
def downloaded (raw : List Char) : Option (List (List Char)) :=
  match py.loads raw with
  | none => none
  | some (.obj entries) =>
    match Json.get? entries "proxies" with
    | some value => (items value).bind fun items => (items.mapM (itemTexts py)).map List.flatten
    | none => some (textLines raw)
  | some (.arr items) => some ((items.filter Json.truthy).map fun x => PyText.strip (str py x))
  | some _ => some (textLines raw)

/-- How a call finds out whether to download where there is a list: by `free_proxy_redownload`, or by what is
typed. -/
inductive Ask
  | headless (redownload : Bool)
  | typed (answers : List (List Char))
  deriving DecidableEq

/-- The loop over `input`.  `none` is `EOFError`. -/
def typedAnswer : List (List Char) → Option Bool
  | [] => none
  | answer :: answers =>
    let c := (PyText.strip answer).map Char.toLower
    if c ∈ ["y".toList, "yes".toList] then some true
    else if c ∈ ["n".toList, "no".toList] then some false
    else typedAnswer answers

inductive Writing
  | done
  | refused
  | broken (kept : ℕ)
  deriving DecidableEq

/-- What a call of `_load_free_list` meets: `answer` is the text of the API, if there was one, and `readable`
says whether `load_proxy_file` can read what is there. -/
structure Call where
  ask : Ask
  answer : Option (List Char)
  writing : Writing
  readable : Bool
  deriving DecidableEq

def Call.shouldDl (c : Call) (file : Option (List Char)) : Option Bool :=
  match file, c.ask with
  | none, _ => some true
  | some _, .headless redownload => some redownload
  | some _, .typed answers => typedAnswer answers

def Call.writes (c : Call) (file : Option (List Char)) : Option (List Char) :=
  match c.shouldDl file, c.answer.bind (downloaded py), c.writing with
  | some true, some ds, .done => some (ProxyFile.joined ds)
  | some true, some ds, .broken kept => some ((ProxyFile.joined ds).take kept)
  | _, _, _ => none

/-- `_load_free_list`: the file behind it, and what it adds; `none` where it raises. -/
def loadFreeList (file : Option (List Char)) (c : Call) : Option (List Char) × Option (List Url) :=
  match c.shouldDl file with
  | none => (file, none)
  | some _ =>
    match (c.writes py file).or file with
    | none => (none, some [])
    | some text => (some text, if c.readable then some (ProxyFile.loadProxyFile text) else none)

/-- A call of `collect_proxies` with `use_free_list`. -/
structure Collecting where
  texts : ProxyTexts
  call : Call

/-- `collect_proxies`: the file of the free list behind it, and the urls, `none` where it raises. -/
def collectProxies (file : Option (List Char)) (c : Collecting) : Option (List Char) × Option (List Url) :=
  match (c.texts.sources.collectProxies .empty).2 with
  | none => (file, none)
  | some proxies =>
    let (file, listed) := loadFreeList py file c.call
    (file, listed.map fun ps => ps.foldl ProxySources.addOnce proxies)

def run (file : Option (List Char)) (cs : List Collecting) : Option (List Char) :=
  cs.foldl (fun file c => (collectProxies py file c).1) file

def Call.Idle (c : Call) (file : Option (List Char)) : Prop :=
  c.shouldDl file ≠ some true ∨ c.answer.bind (downloaded py) = none ∨ c.writing = .refused

/-- A list that a call has written: that of a whole download, or its beginning with a proxy that may be cut
short. -/
def Call.Wrote (c : Call) (file : Option (List Char)) (proxies : List Url) : Prop :=
  c.shouldDl file = some true ∧ ∃ ds, c.answer.bind (downloaded py) = some ds ∧
    (c.writing = .done ∧ proxies = ds.flatMap ProxyFile.loadProxyFile ∨
      (∃ kept, c.writing = .broken kept) ∧ ∃ n part, part <+: ds.getD n [] ∧
        proxies = (ds.take n).flatMap ProxyFile.loadProxyFile ++ ProxyFile.loadProxyFile part)

/-- A call of `collect_proxies` that leaves the free list as it is. -/
def Collecting.Idle (c : Collecting) (file : Option (List Char)) : Prop :=
  (c.texts.sources.collectProxies .empty).2 = none ∨ c.call.Idle py file

def Collecting.writes (c : Collecting) (file : Option (List Char)) : Option (List Char) :=
  (c.texts.sources.collectProxies .empty).2.bind fun _ => c.call.writes py file

variable {py} {c : Call} {file : Option (List Char)} {text : List Char}

theorem writes_eq_none_iff : c.writes py file = none ↔ c.Idle py file := by
  unfold Call.writes Call.Idle
  split
  · next hdl hds hw => simp [hdl, hds, hw]
  · next hdl hds hw => simp [hdl, hds, hw]
  · next hdone hbroken =>
    refine iff_of_true rfl ?_
    by_contra! h
    obtain ⟨hdl, hds, hw⟩ := h
    obtain ⟨ds, hds⟩ := Option.ne_none_iff_exists'.mp hds
    cases hwriting : c.writing with
    | done => exact hdone ds hdl hds hwriting
    | refused => exact hw hwriting
    | broken kept => exact hbroken ds kept hdl hds hwriting

theorem wrote_of_writes (h : c.writes py file = some text) :
    c.Wrote py file (ProxyFile.loadProxyFile text) := by
  unfold Call.writes at h
  split at h
  · next ds hdl hds hw =>
    obtain rfl := Option.some_inj.mp h
    exact ⟨hdl, ds, hds, .inl ⟨hw, ProxyFile.loadProxyFile_joined ds⟩⟩
  · next ds kept hdl hds hw =>
    obtain rfl := Option.some_inj.mp h
    obtain ⟨n, part, hpart, hread⟩ := ProxyFile.loadProxyFile_take_joined ds kept
    exact ⟨hdl, ds, hds, .inr ⟨⟨kept, hw⟩, n, part, hpart, hread⟩⟩
  · cases h

theorem loadFreeList_fst (py : JsonText) (file : Option (List Char)) (c : Call) :
    (loadFreeList py file c).1 = (c.writes py file).or file := by
  unfold loadFreeList
  split
  · next hdl => simp [Call.writes, hdl]
  · split
    · next hnone => rw [hnone]
    · next text hsome => rw [hsome]

theorem eq_of_loadFreeList {ps : List Url} (h : (loadFreeList py file c).2 = some ps) :
    ps = (loadFreeList py file c).1.elim [] ProxyFile.loadProxyFile := by
  unfold loadFreeList at h ⊢
  split at h
  · cases h
  · split at h
    · cases h
      rfl
    · split at h
      · exact (Option.some_inj.mp h).symm
      · cases h

theorem Collecting.writes_eq_none_iff {c : Collecting} : c.writes py file = none ↔ c.Idle py file := by
  rw [Collecting.writes, Collecting.Idle, Option.bind_eq_none_iff, ← FreeList.writes_eq_none_iff]
  cases (c.texts.sources.collectProxies .empty).2 <;> simp

theorem collectProxies_fst (py : JsonText) (file : Option (List Char)) (c : Collecting) :
    (collectProxies py file c).1 = (c.writes py file).or file := by
  unfold collectProxies Collecting.writes
  split
  · next hnone => rw [hnone, Option.bind_none, Option.none_or]
  · next proxies hsome => rw [hsome, Option.bind_some, ← loadFreeList_fst]

theorem collectProxies_snd (py : JsonText) (file : Option (List Char)) (c : Collecting) :
    let files := c.texts.sources.files ++ [(loadFreeList py file c.call).2]
    (collectProxies py file c).2 =
      ((⟨c.texts.proxies, files⟩ : ProxySources).collectProxies .empty).2 := by
  simp only [collectProxies, ProxySources.collectProxies, ProxyTexts.sources]
  cases c.texts.proxies with
  | none => rfl
  | some entries =>
    simp only [ProxySources.addFiles_concat]
    cases ProxySources.addFiles (entries.foldl ProxySources.collectEntry (.empty, [])).2 _ with
    | none => rfl
    | some proxies => rfl

theorem exists_listed {c : Collecting} {raw : List Url} (h : (collectProxies py file c).2 = some raw) :
    ∃ ps, (loadFreeList py file c.call).2 = some ps := by
  unfold collectProxies at h
  split at h
  · cases h
  · obtain ⟨ps, hps, -⟩ := Option.map_eq_some_iff.mp h
    exact ⟨ps, hps⟩

theorem collectProxies_fst_of_some {c : Collecting} {raw : List Url}
    (h : (collectProxies py file c).2 = some raw) :
    (collectProxies py file c).1 = (loadFreeList py file c.call).1 := by
  unfold collectProxies at h ⊢
  split at h
  · cases h
  · rfl

theorem mem_of_collectProxies {c : Collecting} {raw ps : List Url} {p : Url}
    (h : (collectProxies py file c).2 = some raw) (hps : (loadFreeList py file c.call).2 = some ps) :
    p ∈ raw ↔ (∃ e ∈ c.texts.proxies.getD [], e.added = some p) ∨
      (∃ text, some text ∈ c.texts.files ∧ p ∈ ProxyFile.loadProxyFile text) ∨ p ∈ ps := by
  rw [collectProxies_snd, hps] at h
  cases hentries : c.texts.proxies with
  | none => simp [ProxySources.collectProxies, hentries] at h
  | some entries =>
    rw [ProxySources.mem_collectProxies hentries h, Option.getD_some]
    simp [ProxyTexts.sources, or_and_right, exists_or]

theorem source_of_run (py : JsonText) (file : Option (List Char)) (cs : List Collecting) (c : Collecting) :
    let ps := (collectProxies py (run py file cs) c).1.elim [] ProxyFile.loadProxyFile
    ps = file.elim [] ProxyFile.loadProxyFile ∧ (∀ d ∈ cs ++ [c], d.Idle py file) ∨
      ∃ pre d post, cs ++ [c] = pre ++ d :: post ∧ d.call.Wrote py (run py file pre) ps ∧
        ∀ e ∈ post, e.Idle py (run py file (pre ++ [d])) := by
  have hrun : ∀ cs, run py file cs =
      cs.foldl (fun file c => ((c.writes py file).map some).getD file) file := by
    intro cs
    refine congrArg (fun f => List.foldl f file cs) (funext₂ fun file c => ?_)
    rw [collectProxies_fst]
    cases c.writes py file <;> rfl
  have hafter : (collectProxies py (run py file cs) c).1 = run py file (cs ++ [c]) := by
    rw [run, run, List.foldl_concat]
  rw [hafter]
  rcases exists_last_write (fun file c => (Collecting.writes py c file).map some) file (cs ++ [c]) with
    ⟨hfile, hnone⟩ | ⟨pre, d, post, heq, hd, hnone⟩
  · refine .inl ⟨?_, fun d hd => Collecting.writes_eq_none_iff.mp (Option.map_eq_none_iff.mp (hnone d hd))⟩
    rw [hrun]
    exact congrArg (fun file : Option (List Char) => file.elim [] ProxyFile.loadProxyFile) hfile
  · rw [← hrun, ← hrun] at hd
    obtain ⟨text, hwrites, htext⟩ := Option.map_eq_some_iff.mp hd
    have hpre : run py file (pre ++ [d]) = some text := by
      rw [run, List.foldl_concat, ← run, collectProxies_fst, hwrites, Option.some_or]
    refine .inr ⟨pre, d, post, heq, ?_, fun e he => ?_⟩
    · rw [← htext]
      obtain ⟨-, -, hcall⟩ := Option.bind_eq_some_iff.mp hwrites
      exact wrote_of_writes hcall
    · rw [hpre, htext]
      have he := hnone e he
      rw [← hrun] at he
      exact Collecting.writes_eq_none_iff.mp (Option.map_eq_none_iff.mp he)

/-- In any run of starts and reloads, `collect_proxies` returns what the config, the proxy files and the free
list name, and the free list is that of the last call that wrote its file, or the one that was there at
first. -/
theorem collected_of_run (py : JsonText) (file : Option (List Char)) (cs : List Collecting) (c : Collecting)
    {raw : List Url} (h : (collectProxies py (run py file cs) c).2 = some raw) :
    ∃ ps, (∀ p, p ∈ raw ↔ (∃ e ∈ c.texts.proxies.getD [], e.added = some p) ∨
        (∃ text, some text ∈ c.texts.files ∧ p ∈ ProxyFile.loadProxyFile text) ∨ p ∈ ps) ∧
      (ps = file.elim [] ProxyFile.loadProxyFile ∧ (∀ d ∈ cs ++ [c], d.Idle py file) ∨
        ∃ pre d post, cs ++ [c] = pre ++ d :: post ∧ d.call.Wrote py (run py file pre) ps ∧
          ∀ e ∈ post, e.Idle py (run py file (pre ++ [d]))) := by
  obtain ⟨ps, hps⟩ := exists_listed h
  refine ⟨ps, fun p => mem_of_collectProxies h hps, ?_⟩
  rw [eq_of_loadFreeList hps, ← collectProxies_fst_of_some h]
  exact source_of_run py file cs c

def listAnswer : List Char := "[\"http://a:1\"]".toList

def errorAnswer : List Char := "\x7b\"error\": \"limit\"\x7d".toList

def answers : JsonText where
  loads raw :=
    if raw = listAnswer then some (.arr [.str "http://a:1".toList])
    else if raw = errorAnswer then some (.obj [("error".toList, .str "limit".toList)])
    else none
  repr _ := []
  lower := List.map Char.toLower

def downloading (answer : List Char) : Collecting :=
  ⟨⟨some [], []⟩, ⟨.headless true, some answer, .done, true⟩⟩

theorem error_replaces_list : ∃ ps, (∀ p, p = String.ofList errorAnswer ↔ p ∈ ps) ∧
    ∃ d ∈ [downloading listAnswer, downloading errorAnswer], ∃ file, d.call.Wrote answers file ps := by
  have hcollected : (collectProxies answers (run answers none [downloading listAnswer])
      (downloading errorAnswer)).2 = some [String.ofList errorAnswer] := by
    decide +kernel
  obtain ⟨ps, hraw, hsource⟩ :=
    collected_of_run answers none [downloading listAnswer] (downloading errorAnswer) hcollected
  have hps : ∀ p, p = String.ofList errorAnswer ↔ p ∈ ps := by
    intro p
    rw [← List.mem_singleton, hraw p]
    simp [downloading]
  refine ⟨ps, hps, ?_⟩
  rcases hsource with ⟨rfl, -⟩ | ⟨pre, d, post, heq, hwrote, -⟩
  · exact absurd ((hps _).mp rfl) List.not_mem_nil
  · have hd : d ∈ [downloading listAnswer] ++ [downloading errorAnswer] := by
      rw [heq]
      exact List.mem_append_right _ List.mem_cons_self
    exact ⟨d, hd, _, hwrote⟩

end FreeList

end ProxySplit
