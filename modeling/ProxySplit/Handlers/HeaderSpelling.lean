import ProxySplit.Handlers.CacheControl

namespace ProxySplit

open Lib

/-- The directives of a `Cache-Control` line. -/
def directivesOf (value : String) : List (List Char) := (value.toList.splitOn ',').map PyText.strip

def directives (headers : Headers) : List (List Char) := (controlLines headers).flatMap directivesOf

/-- The lines that are not `Cache-Control`. -/
def otherLines (headers : Headers) : Headers := headers.filter fun h => h.1.toLower ≠ "cache-control"

/-- The same response header in another spelling: the names in another case, the `Cache-Control` directives
on other lines. -/
structure SameFields (headers other : Headers) : Prop where
  lines : (otherLines other).map (fun h => (h.1.toLower, h.2)) =
    (otherLines headers).map fun h => (h.1.toLower, h.2)
  directives : directives other = directives headers

def ResponseCache.decision (c : ResponseCache) (r : Cached) : Option PyFloat :=
  if c.accepts r then some (ttlOf r.headers c.defaultTtl) else none

def DiskCache.decision (c : DiskCache) (r : Cached) : Option PyFloat :=
  if c.accepts r then some (ttlOf r.headers c.defaultTtl) else none

/-- No other spelling of the header lines makes a difference. -/
structure SpellingFree (l1 : ResponseCache) (l2 : DiskCache) (now : Clock) (url : Url) (status : Nat)
    (body : Bytes) (headers : Headers) : Prop where
  memory : ∀ other, SameFields headers other →
    l1.decision ⟨status, body, dictOf other⟩ = l1.decision ⟨status, body, dictOf headers⟩
  disk : ∀ other, SameFields headers other →
    l2.decision ⟨status, body, dictOf other⟩ = l2.decision ⟨status, body, dictOf headers⟩
  validators : ∀ other, SameFields headers other →
    (l1.put now url ⟨status, body, dictOf other⟩).getValidators url =
      (l1.put now url ⟨status, body, dictOf headers⟩).getValidators url

def forbidsAny (ds : List (List Char)) : Bool :=
  ds.any fun d => ["no-store", "no-cache", "private"].any fun word => word.toList <:+: d.map Char.toLower

def isMaxAge (d : List Char) : Bool := "max-age=".toList.isPrefixOf (d.map Char.toLower)

/-- The time to live that the first `max-age` gives. -/
def ttlAmong (defaultTtl : PyFloat) (ds : List (List Char)) : PyFloat :=
  match ds.find? isMaxAge with
  | some d => (PyFloat.parse ((d.map Char.toLower).drop 8)).getD defaultTtl
  | none => defaultTtl

def upToMaxAge (ds : List (List Char)) : List (List Char) := ds.take (ds.findIdx isMaxAge + 1)

/-- All that is said is what goes without saying: nothing forbids to store what is stored without it, and
nothing lets store what is not. -/
def Needless (turnsAway : PyFloat → Bool) (defaultTtl : PyFloat) (ds : List (List Char)) : Prop :=
  if turnsAway defaultTtl then turnsAway (ttlAmong defaultTtl ds) = true ∨ forbidsAny (upToMaxAge ds) = true
  else forbidsAny ds = false ∧ ttlAmong defaultTtl ds = defaultTtl

def seen (headers : Headers) : List (List Char) :=
  directivesOf ((dictGet headers "Cache-Control").getD "")

def decisionOn (turnsAway : PyFloat → Bool) (defaultTtl : PyFloat) (ds : List (List Char)) :
    Option PyFloat :=
  if forbidsAny ds || turnsAway (ttlAmong defaultTtl ds) then none else some (ttlAmong defaultTtl ds)

section Directives

variable {ds : List (List Char)} {d : PyFloat} {turnsAway : PyFloat → Bool} {k : Nat}

theorem forbidsAny_mono {ds' : List (List Char)} (h : ds.Sublist ds') (hforb : forbidsAny ds = true) :
    forbidsAny ds' = true := by
  obtain ⟨d, hd, hword⟩ := List.any_eq_true.mp hforb
  exact List.any_eq_true.mpr ⟨d, h.subset hd, hword⟩

theorem ttlAmong_take (d : PyFloat) (ds : List (List Char)) (k : Nat) :
    ttlAmong d (ds.take k) = d ∨
      ds.findIdx isMaxAge < k ∧ ttlAmong d (ds.take k) = ttlAmong d ds := by
  cases hfind : (ds.take k).find? isMaxAge with
  | none =>
    left
    rw [ttlAmong, hfind]
  | some found =>
    right
    constructor
    · have hidx : (ds.take k).findIdx isMaxAge < (ds.take k).length :=
        List.findIdx_lt_length.mpr ⟨found, List.mem_of_find?_eq_some hfind, List.find?_some hfind⟩
      rw [List.findIdx_take, List.length_take] at hidx
      omega
    · have hall : ds.find? isMaxAge = some found := by
        rw [← List.take_append_drop k ds, List.find?_append, hfind]
        rfl
      rw [ttlAmong, ttlAmong, hfind, hall]

theorem ttlAmong_upToMaxAge : ttlAmong d (upToMaxAge ds) = ttlAmong d ds := by
  have hfind : (upToMaxAge ds).find? isMaxAge = ds.find? isMaxAge := by
    induction ds with
    | nil => rfl
    | cons c ds ih =>
      rw [upToMaxAge, List.findIdx_cons]
      cases hc : isMaxAge c with
      | true => simp [hc]
      | false =>
        rw [cond_false, List.take_succ_cons, List.find?_cons_of_neg (by simp [hc]),
          List.find?_cons_of_neg (by simp [hc])]
        exact ih
  rw [ttlAmong, ttlAmong, hfind]

theorem decisionOn_nil : decisionOn turnsAway d [] = if turnsAway d then none else some d := rfl

theorem decisionOn_eq_none :
    decisionOn turnsAway d ds = none ↔ forbidsAny ds = true ∨ turnsAway (ttlAmong d ds) = true := by
  rw [decisionOn, ← Bool.or_eq_true]
  split
  · next h => simp [h]
  · next h => simp [h]

theorem decisionOn_eq_some {ttl : PyFloat} : decisionOn turnsAway d ds = some ttl ↔
    forbidsAny ds = false ∧ turnsAway ttl = false ∧ ttlAmong d ds = ttl := by
  rw [decisionOn]
  split
  · next h => grind
  · next h => grind

theorem needless_iff : Needless turnsAway d ds ↔
    ∀ k, decisionOn turnsAway d (ds.take k) = decisionOn turnsAway d [] := by
  rw [Needless, decisionOn_nil]
  cases haway : turnsAway d with
  | true =>
    simp only [if_true, decisionOn_eq_none]
    constructor
    · intro h k
      rcases ttlAmong_take d ds k with hd | ⟨hlt, hd⟩
      · exact .inr (by rw [hd]; exact haway)
      · rcases h with h | h
        · exact .inr (by rw [hd]; exact h)
        · exact .inl (forbidsAny_mono (List.take_sublist_take_left hlt) h)
    · intro h
      rcases h (ds.findIdx isMaxAge + 1) with h | h
      · exact .inr h
      · refine .inl ?_
        rw [← ttlAmong_upToMaxAge]
        exact h
  | false =>
    simp only [Bool.false_eq_true, if_false, decisionOn_eq_some]
    constructor
    · rintro ⟨hforb, httl⟩ k
      refine ⟨?_, haway, ?_⟩
      · rw [← Bool.not_eq_true] at hforb ⊢
        exact fun htake => hforb (forbidsAny_mono (List.take_sublist ..) htake)
      · rcases ttlAmong_take d ds k with hd | ⟨-, hd⟩
        · exact hd
        · exact hd.trans httl
    · intro h
      obtain ⟨hforb, -, httl⟩ := h ds.length
      rw [List.take_length] at hforb httl
      exact ⟨hforb, httl⟩

end Directives

section Seen

variable {headers : Headers} {d : PyFloat} {name : String}

theorem words_plain : ∀ word ∈ ["no-store", "no-cache", "private"],
    ',' ∉ word.toList ∧ ∀ c ∈ word.toList, PyText.isSpace c = false := by
  have hplain : ∀ word ∈ ["no-store", "no-cache", "private"],
      ',' ∉ word.toList ∧ (word.toList.all fun c => !PyText.isSpace c) = true := by decide +kernel
  intro word hword
  obtain ⟨hcomma, hspace⟩ := hplain word hword
  exact ⟨hcomma, fun c hc => Bool.not_eq_true' _ ▸ List.all_eq_true.mp hspace c hc⟩

theorem cacheControl_splitOn : (cacheControl headers).splitOn ',' =
    (((dictGet headers "Cache-Control").getD "").toList.splitOn ',').map (List.map Char.toLower) := by
  have hlower : ∀ v : String, v.toLower.toList = v.toList.map Char.toLower := fun v => String.toList_map
  rw [cacheControl, hlower, splitOn_map PyText.toLower_eq_comma_iff]

theorem forbidsStore_seen : forbidsStore headers = forbidsAny (seen headers) := by
  have hany : ∀ word ∈ ["no-store", "no-cache", "private"], (word.toList <:+: cacheControl headers ↔
      ∃ d ∈ seen headers, word.toList <:+: d.map Char.toLower) := by
    intro word hword
    obtain ⟨hcomma, hspace⟩ := words_plain word hword
    rw [infix_splitOn_iff hcomma, cacheControl_splitOn, seen, directivesOf]
    simp only [List.mem_map, exists_exists_and_eq_and, ← PyText.strip_map_toLower,
      PyText.infix_strip_iff hspace]
  rw [Bool.eq_iff_iff, forbidsStore, forbidsAny]
  simp only [List.any_eq_true, decide_eq_true_eq]
  constructor
  · rintro ⟨word, hword, hin⟩
    obtain ⟨d, hd, hin⟩ := (hany word hword).mp hin
    exact ⟨d, hd, word, hword, hin⟩
  · rintro ⟨d, hd, word, hword, hin⟩
    exact ⟨word, hword, (hany word hword).mpr ⟨d, hd, hin⟩⟩

theorem ttlOf_seen : ttlOf headers d = ttlAmong d (seen headers) := by
  have hparts : ((cacheControl headers).splitOn ',').map PyText.strip =
      (seen headers).map (List.map Char.toLower) := by
    rw [cacheControl_splitOn, seen, directivesOf, List.map_map, List.map_map]
    exact List.map_congr_left fun piece _ => PyText.strip_map_toLower piece
  have hfind : ((seen headers).map (List.map Char.toLower)).find? (fun part =>
      "max-age=".toList.isPrefixOf part) = ((seen headers).find? isMaxAge).map (List.map Char.toLower) :=
    List.find?_map
  rw [ttlOf, hparts, ttlAmong]
  rw [hfind]
  cases (seen headers).find? isMaxAge with
  | none => rfl
  | some part => rfl

theorem decision_eq {c : ResponseCache} {r : Cached} :
    c.decision r = decisionOn (c.turnsAway r.body.length) c.defaultTtl (seen r.headers) := by
  rw [ResponseCache.decision, decisionOn, ← forbidsStore_seen, ← ttlOf_seen, ResponseCache.accepts,
    ResponseCache.turnsAway]
  grind

theorem diskDecision_eq {c : DiskCache} {r : Cached} :
    c.decision r = decisionOn (c.turnsAway r.body.length) c.defaultTtl (seen r.headers) := by
  rw [DiskCache.decision, decisionOn, ← forbidsStore_seen, ← ttlOf_seen, DiskCache.accepts,
    DiskCache.turnsAway]
  grind

theorem dictGet_dictOf : dictGet (dictOf headers) name =
    if headers.any (fun h => h.1 = name) then getHeader headers name else none := by
  have hfind : dictGet (dictOf headers) name = (headers.find? fun h => h.1 = name).map fun h =>
      (getHeader headers h.1).getD h.2 := by
    rw [dictGet, dictOf, List.find?_map, Option.map_map]
    rfl
  rw [hfind]
  cases hline : headers.find? fun h => h.1 = name with
  | none =>
    rw [if_neg]
    · rfl
    · rw [List.any_eq_true]
      rintro ⟨line, hline', hname⟩
      exact List.find?_eq_none.mp hline line hline' hname
  | some line =>
    have hmem := List.mem_of_find?_eq_some hline
    have hname := List.find?_some hline
    rw [if_pos (List.any_eq_true.mpr ⟨line, hmem, hname⟩), Option.map_some, of_decide_eq_true hname]
    cases hget : getHeader headers name with
    | some v => rfl
    | none =>
      rw [getHeader, Option.map_eq_none_iff, List.find?_eq_none] at hget
      refine absurd ?_ (hget line hmem)
      rw [of_decide_eq_true hname]
      exact decide_eq_true rfl

variable (headers) in
theorem seen_cases : dictGet (dictOf headers) "Cache-Control" = none ∨
    ∃ v rest, controlLines headers = v :: rest ∧ dictGet (dictOf headers) "Cache-Control" = some v := by
  have hget : getHeader headers "Cache-Control" = (controlLines headers).head? := by
    have hname : "Cache-Control".toLower = "cache-control" := by decide +kernel
    rw [getHeader, controlLines, List.head?_map, List.head?_filter, hname]
  rw [dictGet_dictOf, hget]
  split
  · cases controlLines headers with
    | nil => exact .inl rfl
    | cons v rest => exact .inr ⟨v, rest, rfl, rfl⟩
  · exact .inl rfl

variable (headers d) in
theorem exists_seen_take (turnsAway : PyFloat → Bool) : ∃ k, decisionOn turnsAway d (seen (dictOf headers)) =
    decisionOn turnsAway d ((directives headers).take k) := by
  rcases seen_cases headers with hnone | ⟨v, rest, hlines, hsome⟩
  · refine ⟨0, ?_⟩
    rw [seen, hnone]
    rfl
  · refine ⟨(directivesOf v).length, ?_⟩
    rw [seen, hsome, directives, hlines, List.flatMap_cons, Option.getD_some, List.take_left]

end Seen

def controlLine (name : String) (ds : List (List Char)) : Headers :=
  if ds = [] then [] else [(name, String.ofList ([','].intercalate ds))]

/-- The names that are `spelled` but for the case are spelled so. -/
def respell (name spelled : String) (headers : Headers) : Headers :=
  headers.map fun h => (if h.1.toLower = name then spelled else h.1, h.2)

section Spellings

variable {headers other : Headers} {ds : List (List Char)} {d : PyFloat} {turnsAway : PyFloat → Bool}
  {name spelled : String}

theorem plain_of_mem_directives {part : List Char} (h : part ∈ directives headers) :
    ',' ∉ part ∧ PyText.strip part = part := by
  obtain ⟨v, -, hpart⟩ := List.mem_flatMap.mp h
  obtain ⟨piece, hpiece, rfl⟩ := List.mem_map.mp hpart
  exact ⟨fun hcomma => not_mem_of_mem_splitOn hpiece (PyText.mem_of_mem_strip hcomma),
    PyText.strip_strip piece⟩

theorem directivesOf_joined (hne : ds ≠ []) (h : ∀ d ∈ ds, ',' ∉ d ∧ PyText.strip d = d) :
    directivesOf (String.ofList ([','].intercalate ds)) = ds := by
  rw [directivesOf, String.toList_ofList, List.splitOn_intercalate ',' (fun d hd => (h d hd).1) hne]
  conv_rhs => rw [← List.map_id ds]
  exact List.map_congr_left fun d hd => (h d hd).2

theorem directives_controlLine (hname : name.toLower = "cache-control")
    (h : ∀ d ∈ ds, ',' ∉ d ∧ PyText.strip d = d) : directives (controlLine name ds) = ds := by
  rw [controlLine]
  split
  · next hnil => rw [hnil]; rfl
  · next hne =>
    rw [directives, controlLines, List.filter_cons_of_pos (by simpa using hname)]
    exact (List.append_nil _).trans (directivesOf_joined hne h)

theorem directives_append : directives (headers ++ other) = directives headers ++ directives other := by
  simp only [directives, controlLines, List.filter_append, List.map_append, List.flatMap_append]

theorem otherLines_append : otherLines (headers ++ other) = otherLines headers ++ otherLines other :=
  List.filter_append ..

theorem otherLines_controlLine (hname : name.toLower = "cache-control") :
    otherLines (controlLine name ds) = [] := by
  rw [controlLine]
  split
  · rfl
  · simp [otherLines, hname]

theorem directives_otherLines : directives (otherLines headers) = [] := by
  have hnone : controlLines (otherLines headers) = [] := by
    rw [controlLines, otherLines, List.filter_filter, List.map_eq_nil_iff, List.filter_eq_nil_iff]
    intro h _
    simp
  rw [directives, hnone]
  rfl

theorem sameFields_spread {lines : Headers} (hlines : otherLines lines = [])
    (h : directives lines = directives headers) : SameFields headers (lines ++ otherLines headers) where
  lines := by
    rw [otherLines_append, hlines, otherLines, List.nil_append, otherLines, List.filter_filter]
    simp only [Bool.and_self]
  directives := by rw [directives_append, directives_otherLines, List.append_nil, h]

variable (headers d turnsAway) in
theorem exists_spelling (k : Nat) : ∃ other, SameFields headers other ∧
    decisionOn turnsAway d (seen (dictOf other)) = decisionOn turnsAway d ((directives headers).take k) := by
  have hlower : "cache-control".toLower = "cache-control" := by decide +kernel
  have hupper : "Cache-Control".toLower = "cache-control" := by decide +kernel
  have hplain : ∀ part ∈ directives headers, ',' ∉ part ∧ PyText.strip part = part :=
    fun _ => plain_of_mem_directives
  by_cases hnil : (directives headers).take k = []
  · refine ⟨controlLine "cache-control" (directives headers) ++ otherLines headers,
      sameFields_spread (otherLines_controlLine hlower) (directives_controlLine hlower hplain), ?_⟩
    have hnone : dictGet (dictOf (controlLine "cache-control" (directives headers) ++ otherLines headers))
        "Cache-Control" = none := by
      rw [dictGet_dictOf, if_neg]
      rw [List.any_eq_true]
      rintro ⟨line, hline, hname⟩
      rw [decide_eq_true_eq] at hname
      rcases List.mem_append.mp hline with hline | hline
      · rw [controlLine] at hline
        split at hline
        · cases hline
        · rw [List.mem_singleton.mp hline] at hname
          have hne : "cache-control" ≠ "Cache-Control" := by decide
          exact absurd hname hne
      · refine of_decide_eq_true (List.mem_filter.mp hline).2 ?_
        rw [hname]
        exact hupper
    rw [seen, hnone, hnil]
    rfl
  · refine ⟨controlLine "Cache-Control" ((directives headers).take k) ++
      controlLine "Cache-Control" ((directives headers).drop k) ++ otherLines headers,
      sameFields_spread ?_ ?_, ?_⟩
    · rw [otherLines_append, otherLines_controlLine hupper, otherLines_controlLine hupper]
      rfl
    · rw [directives_append, directives_controlLine hupper fun d hd => hplain d (List.mem_of_mem_take hd),
        directives_controlLine hupper fun d hd => hplain d (List.mem_of_mem_drop hd), List.take_append_drop]
    · have hsome : ∀ v rest, dictGet (dictOf (("Cache-Control", v) :: rest)) "Cache-Control" = some v := by
        simp [dictGet, dictOf, getHeader]
      rw [controlLine, if_neg hnil, List.append_assoc, List.singleton_append, seen, hsome, Option.getD_some,
        directivesOf_joined hnil fun d hd => hplain d (List.mem_of_mem_take hd)]

theorem decision_spellingFree_iff : (∀ other, SameFields headers other →
    decisionOn turnsAway d (seen (dictOf other)) = decisionOn turnsAway d (seen (dictOf headers))) ↔
      Needless turnsAway d (directives headers) := by
  rw [needless_iff]
  constructor
  · intro h k
    obtain ⟨other, hother, hk⟩ := exists_spelling headers d turnsAway k
    obtain ⟨none, hnone, h0⟩ := exists_spelling headers d turnsAway 0
    rw [← hk, h other hother, ← h none hnone, h0]
    rfl
  · intro h other hother
    obtain ⟨k, hk⟩ := exists_seen_take other d turnsAway
    obtain ⟨k', hk'⟩ := exists_seen_take headers d turnsAway
    rw [hk, hk', hother.directives, h k, h k']

theorem sameFields_respell (hname : spelled.toLower = name) :
    SameFields headers (respell name spelled headers) := by
  have hlower : ∀ h : String × String,
      (if h.1.toLower = name then spelled else h.1).toLower = h.1.toLower := by
    intro h
    split
    · next heq => rw [hname, heq]
    · rfl
  constructor
  · simp only [otherLines, respell, List.filter_map, List.map_map, Function.comp_def, hlower]
  · simp only [directives, controlLines, respell, List.filter_map, List.map_map, Function.comp_def, hlower]

/-- A header that is there under some spelling is found under one and not found under another. -/
theorem exists_respell (hname : spelled.toLower = name) (hne : name ≠ spelled)
    (hlower : name.toLower = name) (h : ∃ line ∈ headers, line.1.toLower = name) :
    ∃ found lost, SameFields headers found ∧ SameFields headers lost ∧
      dictGet (dictOf found) spelled ≠ none ∧ dictGet (dictOf lost) spelled = none := by
  refine ⟨respell name spelled headers, respell name name headers, sameFields_respell hname,
    sameFields_respell hlower, ?_, ?_⟩
  · obtain ⟨line, hline, heq⟩ := h
    have hmem : (spelled, line.2) ∈ respell name spelled headers :=
      List.mem_map.mpr ⟨line, hline, by rw [if_pos heq]⟩
    rw [dictGet_dictOf, if_pos (List.any_eq_true.mpr ⟨_, hmem, decide_eq_true rfl⟩), getHeader, ne_eq,
      Option.map_eq_none_iff, List.find?_eq_none]
    exact fun hnone => hnone _ hmem (decide_eq_true rfl)
  · rw [dictGet_dictOf, if_neg]
    rw [List.any_eq_true]
    rintro ⟨line, hline, heq⟩
    obtain ⟨line, -, rfl⟩ := List.mem_map.mp hline
    rw [decide_eq_true_eq] at heq
    split at heq
    · exact hne heq
    · next hother => exact hother (by rw [heq, hname])

theorem not_found_of_sameFields (hname : spelled.toLower = name) (hne : name ≠ "cache-control")
    (hother : SameFields headers other) (h : ∀ line ∈ headers, line.1.toLower ≠ name) :
    dictGet (dictOf other) spelled = none := by
  rw [dictGet_dictOf, if_neg]
  rw [List.any_eq_true]
  rintro ⟨line, hline, heq⟩
  rw [decide_eq_true_eq] at heq
  have hlower : line.1.toLower = name := by rw [heq, hname]
  have hmem : line ∈ otherLines other :=
    List.mem_filter.mpr ⟨hline, decide_eq_true fun hcc => hne (hlower.symm.trans hcc)⟩
  have hmap := List.mem_map_of_mem (f := fun h : String × String => (h.1.toLower, h.2)) hmem
  rw [hother.lines] at hmap
  obtain ⟨line', hline', heq'⟩ := List.mem_map.mp hmap
  exact h line' (List.mem_filter.mp hline').1 ((congrArg Prod.fst heq').trans hlower)

theorem dictGet_spellingFree_iff (hname : spelled.toLower = name) (hne : name ≠ spelled)
    (hlower : name.toLower = name) (hcontrol : name ≠ "cache-control") :
    (∀ other, SameFields headers other → dictGet (dictOf other) spelled = dictGet (dictOf headers) spelled) ↔
      ∀ line ∈ headers, line.1.toLower ≠ name := by
  constructor
  · intro h line hline heq
    obtain ⟨found, lost, hfound, hlost, hsome, hnone⟩ := exists_respell hname hne hlower ⟨line, hline, heq⟩
    exact hsome ((h found hfound).trans ((h lost hlost).symm.trans hnone))
  · intro h other hother
    rw [not_found_of_sameFields hname hcontrol hother h,
      not_found_of_sameFields hname hcontrol ⟨rfl, rfl⟩ h]

end Spellings

section Caches

variable {l1 : ResponseCache} {l2 : DiskCache} {now : Clock} {url : Url} {r : Cached} {status : Nat}
  {body : Bytes} {headers other : Headers}

theorem getValidators_put (h : l1.accepts r = true) : (l1.put now url r).getValidators url =
    some (dictGet r.headers "ETag", dictGet r.headers "Last-Modified") := by
  have hheld : (l1.put now url r).held url = some (.of l1.defaultTtl now r) := ResponseCache.held_put_self h
  obtain ⟨hen, entry, hentry, hcached, -⟩ := ResponseCache.held_eq_some.mp hheld
  rw [ResponseCache.getValidators, hen, hentry, if_pos rfl, Option.map_some, hcached]
  rfl

theorem accepts_iff_decision : l1.accepts r = true ↔ l1.decision r ≠ none := by
  rw [ResponseCache.decision]
  split
  · next h => simp [h]
  · next h => simp [h]

theorem accepts_of_needless
    (hneedless : Needless (l1.turnsAway body.length) l1.defaultTtl (directives headers))
    (hother : SameFields headers other) :
    l1.accepts ⟨status, body, dictOf other⟩ = !l1.turnsAway body.length l1.defaultTtl := by
  obtain ⟨k, hk⟩ := exists_seen_take other l1.defaultTtl (l1.turnsAway body.length)
  have hdecision : l1.decision ⟨status, body, dictOf other⟩ =
      if l1.turnsAway body.length l1.defaultTtl then none else some l1.defaultTtl := by
    rw [decision_eq, hk, hother.directives, needless_iff.mp hneedless k]
    rfl
  rw [Bool.eq_iff_iff, accepts_iff_decision, hdecision]
  cases l1.turnsAway body.length l1.defaultTtl with
  | true => simp
  | false => simp

theorem validators_iff (hneedless : Needless (l1.turnsAway body.length) l1.defaultTtl (directives headers)) :
    (∀ other, SameFields headers other →
      (l1.put now url ⟨status, body, dictOf other⟩).getValidators url =
        (l1.put now url ⟨status, body, dictOf headers⟩).getValidators url) ↔
    (l1.turnsAway body.length l1.defaultTtl = false →
      ∀ line ∈ headers, line.1.toLower ≠ "etag" ∧ line.1.toLower ≠ "last-modified") := by
  have hetag : (∀ other, SameFields headers other →
      dictGet (dictOf other) "ETag" = dictGet (dictOf headers) "ETag") ↔
        ∀ line ∈ headers, line.1.toLower ≠ "etag" :=
    dictGet_spellingFree_iff (by decide +kernel) (by decide) (by decide +kernel) (by decide)
  have hmodified : (∀ other, SameFields headers other →
      dictGet (dictOf other) "Last-Modified" = dictGet (dictOf headers) "Last-Modified") ↔
        ∀ line ∈ headers, line.1.toLower ≠ "last-modified" :=
    dictGet_spellingFree_iff (by decide +kernel) (by decide) (by decide +kernel) (by decide)
  have hself : SameFields headers headers := ⟨rfl, rfl⟩
  have haccepts : ∀ other, SameFields headers other →
      l1.accepts ⟨status, body, dictOf other⟩ = !l1.turnsAway body.length l1.defaultTtl :=
    fun _ => accepts_of_needless hneedless
  cases haway : l1.turnsAway body.length l1.defaultTtl with
  | true =>
    simp only [haway, Bool.not_true] at haccepts
    constructor
    · intro _ hcases
      cases hcases
    · intro _ other hother
      rw [ResponseCache.put_refused (haccepts other hother),
        ResponseCache.put_refused (haccepts headers hself)]
  | false =>
    simp only [haway, Bool.not_false] at haccepts
    have hfound : ∀ other, SameFields headers other →
        (l1.put now url ⟨status, body, dictOf other⟩).getValidators url =
          some (dictGet (dictOf other) "ETag", dictGet (dictOf other) "Last-Modified") :=
      fun other hother => getValidators_put (haccepts other hother)
    constructor
    · intro h _ line hline
      have hsame : ∀ other, SameFields headers other →
          dictGet (dictOf other) "ETag" = dictGet (dictOf headers) "ETag" ∧
            dictGet (dictOf other) "Last-Modified" = dictGet (dictOf headers) "Last-Modified" := by
        intro other hother
        have heq := h other hother
        rw [hfound other hother, hfound headers hself, Option.some.injEq, Prod.mk.injEq] at heq
        exact heq
      exact ⟨hetag.mp (fun other hother => (hsame other hother).1) line hline,
        hmodified.mp (fun other hother => (hsame other hother).2) line hline⟩
    · intro h other hother
      rw [hfound other hother, hfound headers hself,
        hetag.mpr (fun line hline => (h rfl line hline).1) other hother,
        hmodified.mpr (fun line hline => (h rfl line hline).2) other hother]

/-- The spelling of the header lines makes no difference exactly when the directives say what goes without
saying and a response that is stored has no validators. -/
theorem spellingFree_iff : SpellingFree l1 l2 now url status body headers ↔
    Needless (l1.turnsAway body.length) l1.defaultTtl (directives headers) ∧
    Needless (l2.turnsAway body.length) l2.defaultTtl (directives headers) ∧
    (l1.turnsAway body.length l1.defaultTtl = false →
      ∀ line ∈ headers, line.1.toLower ≠ "etag" ∧ line.1.toLower ≠ "last-modified") := by
  constructor
  · rintro ⟨hmemory, hdisk, hvalidators⟩
    simp only [decision_eq] at hmemory
    simp only [diskDecision_eq] at hdisk
    have hneedless := decision_spellingFree_iff.mp hmemory
    exact ⟨hneedless, decision_spellingFree_iff.mp hdisk, (validators_iff hneedless).mp hvalidators⟩
  · rintro ⟨hmemory, hdisk, hvalidators⟩
    constructor
    case memory =>
      simp only [decision_eq]
      exact decision_spellingFree_iff.mpr hmemory
    case disk =>
      simp only [diskDecision_eq]
      exact decision_spellingFree_iff.mpr hdisk
    case validators => exact (validators_iff hmemory).mpr hvalidators

/-- A `no-store` under a name in lower case is not seen. -/
theorem not_spellingFree_noStore : ¬ SpellingFree ⟨1, .fin 300, 1024, .empty⟩ ⟨1024, .fin 300, 1024, .empty⟩
    ⟨0, 0⟩ "http://h/a" 200 [] [("Cache-Control", "no-store")] := by
  intro h
  have hother : SameFields [("Cache-Control", "no-store")] [("cache-control", "no-store")] :=
    ⟨by decide +kernel, by decide +kernel⟩
  have hstored : (⟨1, .fin 300, 1024, .empty⟩ : ResponseCache).decision
      ⟨200, [], dictOf [("cache-control", "no-store")]⟩ = some (.fin 300) := by decide +kernel
  have hrefused : (⟨1, .fin 300, 1024, .empty⟩ : ResponseCache).decision
      ⟨200, [], dictOf [("Cache-Control", "no-store")]⟩ = none := by decide +kernel
  have hsame := h.memory _ hother
  rw [hstored, hrefused] at hsame
  cases hsame

end Caches

end ProxySplit
