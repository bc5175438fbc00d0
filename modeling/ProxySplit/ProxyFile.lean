import ProxySplit.Lib.Records
import ProxySplit.PoolReload
import ProxySplit.PyText

namespace ProxySplit

open Lib

namespace PyText

def universalNewlines : List Char → List Char
  | [] => []
  | '\r' :: '\n' :: cs => '\n' :: universalNewlines cs
  | c :: cs => (if c = '\r' then '\n' else c) :: universalNewlines cs

def readlines (line : List Char) : List Char → List (List Char)
  | [] => if line.isEmpty then [] else [line]
  | c :: cs => if c = '\n' then (line ++ [c]) :: readlines [] cs else readlines (line ++ [c]) cs

theorem strip_concat {c : Char} (h : isSpace c = true) (s : List Char) : strip (s ++ [c]) = strip s := by
  have hc : [c].dropWhile isSpace = [] := List.dropWhile_cons_of_pos h
  rw [strip, strip, stripOf, stripOf, List.dropWhile_append]
  by_cases hs : s.dropWhile isSpace = []
  · simp [hs, hc]
  · rw [if_neg (by simpa using hs), List.reverse_append, List.reverse_singleton, List.singleton_append,
      List.dropWhile_cons_of_pos h]

end PyText

namespace ProxyFile

/-- A line that `load_proxy_file` takes, once it is stripped. -/
def isProxy (line : List Char) : Bool := !line.isEmpty && !List.isPrefixOf ['#'] line

def loadProxyFile (text : List Char) : List Url :=
  (((PyText.readlines [] (PyText.universalNewlines text)).map PyText.strip).filter isProxy).map String.ofList

/-- `"\n".join(downloaded)`. -/
def joined (downloaded : List (List Char)) : List Char := ['\n'].intercalate downloaded

def saved (proxies : List Url) : List Char := joined (proxies.map String.toList)

structure IsLine (p : Url) : Prop where
  stripped : PyText.strip p.toList = p.toList
  proxy : isProxy p.toList = true
  whole : '\n' ∉ p.toList ∧ '\r' ∉ p.toList

def lines : Records Char where
  isBreak c := c = '\n' ∨ c = '\r'
  norm := PyText.strip
  keep := isProxy
  norm_norm := PyText.strip_strip
  mem_of_mem_norm := PyText.mem_of_mem_strip
  keep_nil := rfl

theorem isBreak_iff {c : Char} : lines.isBreak c = true ↔ c = '\n' ∨ c = '\r' := decide_eq_true_iff

theorem isBreak_lineFeed : lines.isBreak '\n' = true := isBreak_iff.mpr (.inl rfl)

theorem isBreak_carriageReturn : lines.isBreak '\r' = true := isBreak_iff.mpr (.inr rfl)

theorem isLine_iff {p : Url} : IsLine p ↔ lines.IsRecord p.toList := by
  have hwhole : ('\n' ∉ p.toList ∧ '\r' ∉ p.toList) ↔ ∀ c ∈ p.toList, lines.isBreak c = false := by
    simp only [← Bool.not_eq_true, isBreak_iff, not_or, imp_and, forall_and]
    exact ⟨fun h => ⟨fun c hc hn => h.1 (hn ▸ hc), fun c hc hr => h.2 (hr ▸ hc)⟩,
      fun h => ⟨fun hc => h.1 _ hc rfl, fun hc => h.2 _ hc rfl⟩⟩
  constructor
  · rintro ⟨hstrip, hproxy, h⟩
    exact ⟨hstrip, hproxy, hwhole.mp h⟩
  · rintro ⟨hstrip, hproxy, h⟩
    exact ⟨hstrip, hproxy, hwhole.mpr h⟩

theorem read_universalNewlines (line text : List Char) :
    lines.read (line ++ PyText.universalNewlines text) = lines.read (line ++ text) := by
  fun_induction PyText.universalNewlines text generalizing line with
  | case1 => rfl
  | case2 cs ih =>
    have hblank : lines.read ('\n' :: cs) = lines.read cs :=
      Records.read_append_break (s := []) isBreak_lineFeed
    have hrest := ih []
    rw [List.nil_append, List.nil_append] at hrest
    rw [Records.read_append_break isBreak_lineFeed, Records.read_append_break isBreak_carriageReturn,
      hblank, hrest]
  | case3 c cs _ ih =>
    by_cases hc : c = '\r'
    · have hrest := ih []
      rw [List.nil_append, List.nil_append] at hrest
      rw [if_pos hc, hc, Records.read_append_break isBreak_lineFeed,
        Records.read_append_break isBreak_carriageReturn, hrest]
    · have hrest := ih (line ++ [c])
      rw [← List.append_cons, ← List.append_cons] at hrest
      rw [if_neg hc, hrest]

theorem not_mem_universalNewlines (text : List Char) : '\r' ∉ PyText.universalNewlines text := by
  fun_induction PyText.universalNewlines text with
  | case1 => exact List.not_mem_nil
  | case2 cs ih => exact List.not_mem_cons_of_ne_of_not_mem (by decide) ih
  | case3 c cs _ ih =>
    refine List.not_mem_cons_of_ne_of_not_mem ?_ ih
    split
    · decide
    · next hc => exact Ne.symm hc

theorem read_readlines {line s : List Char} (hline : ∀ c ∈ line, lines.isBreak c = false) (hs : '\r' ∉ s) :
    ((PyText.readlines line s).map PyText.strip).filter isProxy = lines.read (line ++ s) := by
  fun_induction PyText.readlines line s with
  | case1 line hnil =>
    rw [List.isEmpty_iff.mp hnil]
    exact (Records.read_nil lines).symm
  | case2 line hnil =>
    rw [List.append_nil, Records.read_whole hline]
    rfl
  | case3 line cs ih =>
    have hrest := ih (fun c hc => absurd hc List.not_mem_nil) (List.not_mem_of_not_mem_cons hs)
    have hspace : PyText.isSpace '\n' = true := by decide
    have hfirst : lines.read line = [PyText.strip line].filter isProxy := Records.read_whole hline
    rw [List.nil_append] at hrest
    rw [Records.read_append_break isBreak_lineFeed, hfirst, ← hrest, List.map_cons,
      PyText.strip_concat hspace, ← List.filter_append, List.singleton_append]
  | case4 line c cs hc ih =>
    obtain ⟨hcr, hcs⟩ := not_or.mp (mt List.mem_cons.mpr hs)
    have hbreak : lines.isBreak c = false :=
      Bool.eq_false_iff.mpr fun h => (isBreak_iff.mp h).elim hc (Ne.symm hcr)
    rw [ih (List.forall_mem_append.mpr ⟨hline, List.forall_mem_singleton.mpr hbreak⟩) hcs, List.append_assoc,
      List.singleton_append]

theorem loadProxyFile_eq (text : List Char) : loadProxyFile text = (lines.read text).map String.ofList := by
  rw [loadProxyFile, read_readlines (fun c hc => absurd hc List.not_mem_nil) (not_mem_universalNewlines text),
    read_universalNewlines, List.nil_append]

theorem isLine_of_mem {p : Url} {text : List Char} (h : p ∈ loadProxyFile text) : IsLine p := by
  rw [loadProxyFile_eq] at h
  obtain ⟨r, hr, rfl⟩ := List.mem_map.mp h
  rw [isLine_iff, String.toList_ofList]
  exact Records.isRecord_of_mem_read hr

theorem loadProxyFile_joined (downloaded : List (List Char)) :
    loadProxyFile (joined downloaded) = downloaded.flatMap loadProxyFile := by
  rw [loadProxyFile_eq, joined, ← Records.write, Records.read_write isBreak_lineFeed, List.map_flatMap]
  exact List.flatMap_congr fun d _ => (loadProxyFile_eq d).symm

theorem loadProxyFile_take_joined (downloaded : List (List Char)) (k : ℕ) : ∃ n part,
    part <+: downloaded.getD n [] ∧ loadProxyFile ((joined downloaded).take k) =
      (downloaded.take n).flatMap loadProxyFile ++ loadProxyFile part := by
  obtain ⟨n, part, hpart, hread⟩ := Records.read_take_write isBreak_lineFeed downloaded k
  refine ⟨n, part, hpart, ?_⟩
  rw [loadProxyFile_eq, joined, ← Records.write, hread, List.map_append, List.map_flatMap, loadProxyFile_eq]
  exact congrArg (· ++ _) (List.flatMap_congr fun d _ => (loadProxyFile_eq d).symm)

theorem loadProxyFile_saved_eq_iff {proxies : List Url} :
    loadProxyFile (saved proxies) = proxies ↔ ∀ p ∈ proxies, IsLine p := by
  have htexts : (lines.read (saved proxies)).map String.ofList = proxies ↔
      lines.read (saved proxies) = proxies.map String.toList := by
    constructor
    · intro h
      rw [← h, List.map_map]
      simp [Function.comp_def, h]
    · intro h
      rw [h, List.map_map]
      simp [Function.comp_def]
  rw [loadProxyFile_eq, htexts, saved, joined, ← Records.write, Records.read_write_eq_iff isBreak_lineFeed,
    List.forall_mem_map]
  exact forall₂_congr fun p _ => isLine_iff.symm

theorem loadProxyFile_line {p : Url} (h : IsLine p) : loadProxyFile p.toList = [p] := by
  have hsaved := loadProxyFile_saved_eq_iff.mpr (List.forall_mem_singleton.mpr h)
  rw [saved, joined, List.map_singleton, List.intercalate_singleton] at hsaved
  exact hsaved

end ProxyFile

/-- The url that an entry of `proxies` adds. -/
def ProxyEntry.added : ProxyEntry → Option Url
  | .dict url _ => truthy url
  | .text url => some url

/-- What `collect_proxies` finds: the config and the texts of the proxy files, `none` for one that cannot be
read. -/
structure ProxyTexts where
  proxies : Option (List ProxyEntry)
  files : List (Option (List Char))
  deriving DecidableEq

def ProxyTexts.sources (t : ProxyTexts) : ProxySources :=
  ⟨t.proxies, t.files.map (Option.map ProxyFile.loadProxyFile)⟩

namespace ProxySources

variable {proxies raw ps : List Url} {files : List (Option (List Url))} {p : Url}

theorem mem_addOnce {q : Url} : p ∈ addOnce proxies q ↔ p ∈ proxies ∨ p = q := by
  rw [addOnce]
  split
  · next hq => exact ⟨.inl, fun h => h.elim id fun hpq => hpq ▸ hq⟩
  · rw [List.mem_append, List.mem_singleton]

theorem mem_foldl_addOnce : p ∈ ps.foldl addOnce proxies ↔ p ∈ proxies ∨ p ∈ ps := by
  induction ps generalizing proxies with
  | nil => simp
  | cons q ps ih => rw [List.foldl_cons, ih, mem_addOnce, List.mem_cons, or_assoc]

theorem foldl_addOnce_of_nodup (h : (proxies ++ ps).Nodup) : ps.foldl addOnce proxies = proxies ++ ps := by
  induction ps generalizing proxies with
  | nil => simp
  | cons q ps ih =>
    have hq : q ∉ proxies := fun hmem => List.disjoint_of_nodup_append h hmem List.mem_cons_self
    rw [List.foldl_cons, addOnce, if_neg hq, ih (by simpa using h), List.append_assoc, List.singleton_append]

theorem mem_addFiles (h : addFiles proxies files = some raw) :
    p ∈ raw ↔ p ∈ proxies ∨ ∃ ps, some ps ∈ files ∧ p ∈ ps := by
  induction files generalizing proxies with
  | nil =>
    cases h
    simp
  | cons file files ih =>
    cases file with
    | none => cases h
    | some ps =>
      rw [ih h, mem_foldl_addOnce, or_assoc]
      simp

theorem addFiles_concat (proxies : List Url) (files : List (Option (List Url))) (file : Option (List Url)) :
    addFiles proxies (files ++ [file]) =
      (addFiles proxies files).bind fun proxies => file.map fun ps => ps.foldl addOnce proxies := by
  induction files generalizing proxies with
  | nil => cases file <;> rfl
  | cons first files ih =>
    cases first with
    | none => rfl
    | some ps => exact ih _

theorem mem_collectEntries {proxyTags : ProxyTags} {entries : List ProxyEntry} :
    p ∈ (entries.foldl collectEntry (proxyTags, proxies)).2 ↔
      p ∈ proxies ∨ ∃ e ∈ entries, e.added = some p := by
  induction entries generalizing proxyTags proxies with
  | nil => simp
  | cons e entries ih =>
    rw [List.foldl_cons, List.exists_mem_cons_iff]
    cases e with
    | text q =>
      rw [collectEntry, ih, mem_addOnce, ProxyEntry.added, Option.some_inj, or_assoc, eq_comm (a := q)]
    | dict url tags =>
      rw [collectEntry]
      cases hurl : truthy url with
      | none => simp only [ih, ProxyEntry.added, hurl, reduceCtorEq, false_or]
      | some q => rw [ih, mem_addOnce, ProxyEntry.added, hurl, Option.some_inj, or_assoc, eq_comm (a := q)]

theorem mem_collectProxies {s : ProxySources} {entries : List ProxyEntry} {proxyTags : ProxyTags}
    (hentries : s.proxies = some entries) (h : (s.collectProxies proxyTags).2 = some raw) :
    p ∈ raw ↔ (∃ e ∈ entries, e.added = some p) ∨ ∃ ps, some ps ∈ s.files ∧ p ∈ ps := by
  simp only [collectProxies, hentries] at h
  rw [mem_addFiles h, mem_collectEntries]
  simp

end ProxySources

namespace ProxyTexts

open ProxyFile

/-- A config without `proxies`, and one proxy file. -/
def file (text : List Char) : ProxyTexts := ⟨some [], [some text]⟩

theorem collectProxies_file (text : List Char) (proxyTags : ProxyTags) :
    ((file text).sources.collectProxies proxyTags).2 =
      some ((loadProxyFile text).foldl ProxySources.addOnce []) := rfl

/-- What was collected, saved as a proxy file and collected from it again, is what each of its urls reads as;
it comes back exactly if each url of the config is a line as it stands.  The urls of the proxy files come back
whatever the config has. -/
theorem collectProxies_saved {t : ProxyTexts} {entries : List ProxyEntry} {raw : List Url}
    {proxyTags : ProxyTags} (hentries : t.proxies = some entries)
    (h : (t.sources.collectProxies proxyTags).2 = some raw) (proxyTags' : ProxyTags) :
    let again := ((file (saved raw)).sources.collectProxies proxyTags').2
    again = some ((raw.flatMap fun p => loadProxyFile p.toList).foldl ProxySources.addOnce []) ∧
      (again = some raw ↔ ∀ e ∈ entries, ∀ p, e.added = some p → IsLine p) ∧
      ∀ text, some text ∈ t.files → ∀ p ∈ loadProxyFile text, ∃ proxies ∈ again, p ∈ proxies := by
  have hmem : ∀ p, p ∈ raw ↔ _ := fun p => ProxySources.mem_collectProxies (s := t.sources) hentries h
  have hlines : (∀ p ∈ raw, IsLine p) ↔ ∀ e ∈ entries, ∀ p, e.added = some p → IsLine p := by
    constructor
    · intro hraw e he p hp
      exact hraw p ((hmem p).mpr (.inl ⟨e, he, hp⟩))
    · intro hconfig p hp
      rcases (hmem p).mp hp with ⟨e, he, hp⟩ | ⟨ps, hps, hp⟩
      · exact hconfig e he p hp
      · obtain ⟨text, -, htext⟩ := List.mem_map.mp hps
        obtain ⟨text, -, rfl⟩ := Option.map_eq_some_iff.mp htext
        exact isLine_of_mem hp
  have hagain : ((file (saved raw)).sources.collectProxies proxyTags').2 =
      some ((raw.flatMap fun p => loadProxyFile p.toList).foldl ProxySources.addOnce []) := by
    rw [collectProxies_file, saved, loadProxyFile_joined, List.flatMap_map]
  refine ⟨hagain, ?_, fun text htext p hp => ⟨_, hagain, ?_⟩⟩
  · rw [collectProxies_file, Option.some_inj, ← hlines]
    constructor
    · intro heq p hp
      rw [← heq, ProxySources.mem_foldl_addOnce] at hp
      exact isLine_of_mem (hp.resolve_left List.not_mem_nil)
    · intro hraw
      rw [loadProxyFile_saved_eq_iff.mpr hraw]
      exact ProxySources.foldl_addOnce_of_nodup (ProxySources.nodup_collectProxies h)
  · have hraw : p ∈ raw := (hmem p).mpr (.inr ⟨_, List.mem_map.mpr ⟨some text, htext, rfl⟩, hp⟩)
    refine ProxySources.mem_foldl_addOnce.mpr (.inr (List.mem_flatMap.mpr ⟨p, hraw, ?_⟩))
    rw [loadProxyFile_line (isLine_of_mem hp)]
    exact List.mem_singleton.mpr rfl

def twoSources : ProxyTexts :=
  ⟨some [.dict (some "http://a:1") none], ["# list\r\n  socks5://b:2 \r\nhttp://a:1".toList]⟩

theorem twoSources_saved :
    let raw := ["http://a:1", "socks5://b:2"]
    ((file (saved raw)).sources.collectProxies .empty).2 = some raw := by
  have hraw : (twoSources.sources.collectProxies .empty).2 = some ["http://a:1", "socks5://b:2"] := by
    decide +kernel
  have h := collectProxies_saved rfl hraw .empty
  refine h.2.1.mpr fun e he p hp => ?_
  obtain rfl := List.mem_singleton.mp he
  cases hp
  exact ⟨by decide +kernel, by decide +kernel, by decide +kernel⟩

end ProxyTexts

end ProxySplit
