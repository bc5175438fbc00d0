import ProxySplit.Lib.Tiling
import ProxySplit.PyText
import ProxySplit.Fetchers.Effects
import Mathlib.Data.List.TakeWhile

namespace ProxySplit

open Lib

/-- `_RANGE_PAT.match`: the two groups of `bytes=(\d+)-(\d*)$`. -/
def rangePattern (s : List Char) : Option (List Char × List Char) :=
  if "bytes=".toList.isPrefixOf s then
    let rest := s.drop 6
    match rest.takeWhile PyText.isDigit, rest.dropWhile PyText.isDigit with
    | [], _ => none
    | first, '-' :: rest =>
      -- `$` also matches in front of a final line feed
      match rest.dropWhile PyText.isDigit with
      | [] | ['\n'] => some (first, rest.takeWhile PyText.isDigit)
      | _ => none
    | _, _ => none
  else none

structure Window where
  start : Int
  stop : Int
  isPartial : Bool
  deriving DecidableEq

namespace Window

def length (w : Window) : Int := w.stop - w.start + 1

def whole (contentLength : Int) : Window := ⟨0, contentLength - 1, false⟩

end Window

/-- `int` of what `\d+` matched, which only fails on too many digits. -/
def intOf (ds : List Char) : Except PyExc Int :=
  match PyText.int ds with
  | some n => .ok n
  | none => .error <| .valueError <|
      s!"Exceeds the limit ({PyText.maxStrDigits} digits) for integer string conversion: value " ++
        s!"has {ds.length} digits; use sys.set_int_max_str_digits() to increase the limit"

/-- `int(re_raw) if re_raw else content_length - 1`. -/
def lastByte (contentLength : Int) (last : List Char) : Except PyExc Int :=
  if last = [] then .ok (contentLength - 1) else intOf last

def selectWindow (contentLength : Int) (clientRange : Option String) : Except PyExc Window :=
  match (truthy clientRange).bind fun h => rangePattern (PyText.strip h.toList) with
  | none => .ok (.whole contentLength)
  | some (first, last) => do
    let rs ← intOf first
    let re ← lastByte contentLength last
    let re := min re (contentLength - 1)
    if rs ≤ re ∧ re < contentLength then .ok ⟨rs, re, true⟩ else .ok (.whole contentLength)

structure ChunkRange where
  start : Int
  stop : Int
  index : Nat
  deriving DecidableEq

def ChunkRange.bounds (r : ChunkRange) : Int × Int := (r.start, r.stop)

/-- The `while` of `build_ranges`, which is also the one that fills up in
`apply_per_proxy_chunk_sizes`.  `none` is a loop without an end. -/
def rangeLoop (chunkSize stop : Int) : (fuel : Nat) → (start : Int) → (idx : Nat) →
    Option (List ChunkRange)
  | 0, start, _ => if start ≤ stop then none else some []
  | fuel + 1, start, idx =>
    if start ≤ stop then
      let last := min (start + chunkSize - 1) stop
      (rangeLoop chunkSize stop fuel (last + 1) (idx + 1)).map (⟨start, last, idx⟩ :: ·)
    else some []

def buildRanges (chunkSize start stop : Int) : Option (List ChunkRange) :=
  rangeLoop chunkSize stop (stop - start + 1).toNat start 0

/-- The `for` of `apply_per_proxy_chunk_sizes`, whose `i`-th call of `per_proxy_chunk_size` returns
`sizes i`, with the offset it ends at. -/
def perProxyLoop (sizes : Nat → Int) (stop : Int) : List Url → (i : Nat) → (cur : Int) →
    List ChunkRange × Int
  | [], _, cur => ([], cur)
  | _ :: assigned, i, cur =>
    if stop < cur then ([], cur)
    else
      let last := min (cur + sizes i - 1) stop
      let rest := perProxyLoop sizes stop assigned (i + 1) (last + 1)
      (⟨cur, last, i⟩ :: rest.1, rest.2)

/-- `new_assigned` with its last entry once more for each of `n` further ranges. -/
def extendLast (assigned : List Url) (n : Nat) : List Url :=
  match assigned.getLast? with
  | some p => assigned ++ List.replicate n p
  | none => assigned

def applyPerProxyChunkSizes (sizes : Nat → Int) (ranges : List ChunkRange) (assigned : List Url)
    (start stop baseChunkSize : Int) : Option (List ChunkRange × List Url) :=
  if assigned.toFinset.card ≤ 1 then some (ranges, assigned)
  else
    let (perProxy, cur) := perProxyLoop sizes stop assigned 0 start
    (rangeLoop baseChunkSize stop (stop - cur + 1).toNat cur perProxy.length).map fun filler =>
      let ranges := perProxy ++ filler
      (ranges, (extendLast assigned filler.length).take ranges.length)

/-- The ranges tile the window and carry their positions. -/
structure Partition (start stop : Int) (ranges : List ChunkRange) : Prop where
  tiles : Tiles stop start (ranges.map ChunkRange.bounds)
  indices : ranges.map ChunkRange.index = List.range ranges.length

/-- The stripped header is `bytes=first-last`, where `last` may be missing. -/
structure RangeForm (clientRange : Option String) (first last : List Char) : Prop where
  form : ∃ h, clientRange = some h ∧ PyText.strip h.toList = "bytes=".toList ++ first ++ '-' :: last
  first_ne : first ≠ []
  first_digits : ∀ c ∈ first, PyText.isDigit c = true
  last_digits : ∀ c ∈ last, PyText.isDigit c = true

/-- The header asks for the bytes from `a` to `b`, up to the end of the resource if it names no
last byte. -/
def Asks (contentLength : Int) (clientRange : Option String) (a b : Int) : Prop :=
  ∃ first last, RangeForm clientRange first last ∧ PyText.int first = some a ∧
    (if last = [] then b = contentLength - 1 else PyText.int last = some b)

/-- A number in the header has more digits than `int` takes. -/
def Unreadable (clientRange : Option String) : Prop :=
  ∃ first last, RangeForm clientRange first last ∧
    (PyText.maxStrDigits < first.length ∨ PyText.maxStrDigits < last.length)

/-- The window is the part of what the header asks for that the resource has, and the whole
resource if that is nothing. -/
def Window.Selected (contentLength : Int) (clientRange : Option String) (w : Window) : Prop :=
  (∃ a b, Asks contentLength clientRange a b ∧ a ≤ min b (contentLength - 1) ∧
    w = ⟨a, min b (contentLength - 1), true⟩) ∨
  (∀ a b, Asks contentLength clientRange a b → min b (contentLength - 1) < a) ∧
    w = .whole contentLength

theorem rangePattern_of_form {first last : List Char} (hne : first ≠ [])
    (hfirst : ∀ c ∈ first, PyText.isDigit c = true) (hlast : ∀ c ∈ last, PyText.isDigit c = true) :
    rangePattern ("bytes=".toList ++ first ++ '-' :: last) = some (first, last) := by
  have hpre : "bytes=".toList.isPrefixOf ("bytes=".toList ++ first ++ '-' :: last) = true := by
    simp
  have hdrop : ("bytes=".toList ++ first ++ '-' :: last).drop 6 = first ++ '-' :: last := by
    simp
  have htake : (first ++ '-' :: last).takeWhile PyText.isDigit = first := by
    rw [List.takeWhile_append_of_pos hfirst,
      List.takeWhile_cons_of_neg (by simp [PyText.isDigit_dash]), List.append_nil]
  have hrest : (first ++ '-' :: last).dropWhile PyText.isDigit = '-' :: last := by
    rw [List.dropWhile_append_of_pos hfirst,
      List.dropWhile_cons_of_neg (by simp [PyText.isDigit_dash])]
  have htake' : last.takeWhile PyText.isDigit = last := List.takeWhile_eq_self_iff.mpr hlast
  have hrest' : last.dropWhile PyText.isDigit = [] := List.dropWhile_eq_nil_iff.mpr hlast
  cases first with
  | nil => exact absurd rfl hne
  | cons c first =>
    simp only [rangePattern, hpre, if_true, hdrop, htake, hrest, hrest', htake']

theorem form_of_rangePattern {s first last : List Char}
    (h : rangePattern s = some (first, last)) :
    first ≠ [] ∧ (∀ c ∈ first, PyText.isDigit c = true) ∧ (∀ c ∈ last, PyText.isDigit c = true) ∧
      (s = "bytes=".toList ++ first ++ '-' :: last ∨
        s = "bytes=".toList ++ first ++ '-' :: last ++ ['\n']) := by
  unfold rangePattern at h
  split at h
  · next hpre =>
    obtain ⟨rest, rfl⟩ := List.isPrefixOf_iff_prefix.mp hpre
    have hdrop : ("bytes=".toList ++ rest).drop 6 = rest := by simp
    simp only [hdrop] at h
    have hsplit := List.takeWhile_append_dropWhile (p := PyText.isDigit) (l := rest)
    have hdigits : ∀ (l : List Char), ∀ c ∈ l.takeWhile PyText.isDigit, PyText.isDigit c = true :=
      fun l c hc => List.mem_takeWhile_imp hc
    split at h
    · cases h
    · next x tail hrest hne =>
      have hsplit' := List.takeWhile_append_dropWhile (p := PyText.isDigit) (l := tail)
      rw [hrest] at hsplit
      split at h
      · next hend =>
        cases h
        rw [hend, List.append_nil] at hsplit'
        refine ⟨hne, hdigits rest, hdigits tail, .inl ?_⟩
        rw [hsplit', List.append_assoc, hsplit]
      · next hend =>
        cases h
        rw [hend] at hsplit'
        refine ⟨hne, hdigits rest, hdigits tail, .inr ?_⟩
        rw [List.append_assoc, List.cons_append, hsplit', List.append_assoc, hsplit]
      · cases h
    · cases h
  · cases h

theorem rangePattern_strip {s first last : List Char} :
    rangePattern (PyText.strip s) = some (first, last) ↔
      PyText.strip s = "bytes=".toList ++ first ++ '-' :: last ∧ first ≠ [] ∧
        (∀ c ∈ first, PyText.isDigit c = true) ∧ ∀ c ∈ last, PyText.isDigit c = true := by
  constructor
  · intro h
    obtain ⟨hne, hfirst, hlast, hs | hs⟩ := form_of_rangePattern h
    · exact ⟨hs, hne, hfirst, hlast⟩
    · have hspace : PyText.isSpace '\n' = true := by decide
      rw [PyText.isSpace_of_strip hs] at hspace
      cases hspace
  · rintro ⟨hs, hne, hfirst, hlast⟩
    rw [hs]
    exact rangePattern_of_form hne hfirst hlast

theorem rangeForm_iff {clientRange : Option String} {first last : List Char} :
    RangeForm clientRange first last ↔
      ((truthy clientRange).bind fun h => rangePattern (PyText.strip h.toList)) =
        some (first, last) := by
  constructor
  · rintro ⟨⟨h, rfl, hs⟩, hne, hfirst, hlast⟩
    have hne' : h ≠ "" := by
      rintro rfl
      simp [PyText.strip, PyText.stripOf] at hs
    rw [truthy, if_neg hne']
    exact rangePattern_strip.mpr ⟨hs, hne, hfirst, hlast⟩
  · intro h
    obtain ⟨s, hs, hpat⟩ := Option.bind_eq_some_iff.mp h
    obtain ⟨hform, hne, hfirst, hlast⟩ := rangePattern_strip.mp hpat
    exact ⟨⟨s, (truthy_eq_some hs).1, hform⟩, hne, hfirst, hlast⟩

theorem intOf_cases {ds : List Char} (hne : ds ≠ []) (h : ∀ c ∈ ds, PyText.isDigit c = true) :
    (∃ n, PyText.int ds = some n ∧ intOf ds = .ok n) ∨
      PyText.maxStrDigits < ds.length ∧ ∃ msg, intOf ds = .error (.valueError msg) := by
  have hint := PyText.int_of_isDigit hne h
  unfold intOf
  by_cases hlen : ds.length ≤ PyText.maxStrDigits
  · rw [if_pos hlen] at hint
    exact .inl ⟨_, hint, by rw [hint]⟩
  · rw [if_neg hlen] at hint
    exact .inr ⟨not_le.mp hlen, _, by rw [hint]⟩

theorem lastByte_cases (contentLength : Int) {last : List Char}
    (h : ∀ c ∈ last, PyText.isDigit c = true) :
    (∃ b, (if last = [] then b = contentLength - 1 else PyText.int last = some b) ∧
        lastByte contentLength last = .ok b) ∨
      PyText.maxStrDigits < last.length ∧
        ∃ msg, lastByte contentLength last = .error (.valueError msg) := by
  unfold lastByte
  by_cases hnil : last = []
  · exact .inl ⟨contentLength - 1, by simp [hnil]⟩
  · simp only [hnil, if_false]
    exact intOf_cases hnil h

theorem RangeForm.unique {clientRange : Option String} {first last first' last' : List Char}
    (h : RangeForm clientRange first last) (h' : RangeForm clientRange first' last') :
    first' = first ∧ last' = last := by
  rw [rangeForm_iff] at h h'
  rw [h] at h'
  cases h'
  exact ⟨rfl, rfl⟩

theorem Asks.unique {contentLength : Int} {clientRange : Option String} {a b a' b' : Int}
    (h : Asks contentLength clientRange a b) (h' : Asks contentLength clientRange a' b') :
    a' = a ∧ b' = b := by
  obtain ⟨first, last, hform, ha, hb⟩ := h
  obtain ⟨first', last', hform', ha', hb'⟩ := h'
  obtain ⟨rfl, rfl⟩ := hform.unique hform'
  rw [ha] at ha'
  refine ⟨(Option.some.inj ha').symm, ?_⟩
  by_cases hnil : last' = []
  · simp only [hnil, if_true] at hb hb'
    rw [hb, hb']
  · simp only [hnil, if_false] at hb hb'
    rw [hb] at hb'
    exact (Option.some.inj hb').symm

theorem length_le_of_int {ds : List Char} {n : Int} (hne : ds ≠ [])
    (h : ∀ c ∈ ds, PyText.isDigit c = true) (hint : PyText.int ds = some n) :
    ds.length ≤ PyText.maxStrDigits := by
  by_contra hlen
  rw [PyText.int_of_isDigit hne h, if_neg hlen] at hint
  cases hint

theorem not_unreadable_of_asks {contentLength : Int} {clientRange : Option String} {a b : Int}
    (h : Asks contentLength clientRange a b) : ¬ Unreadable clientRange := by
  obtain ⟨first, last, hform, ha, hb⟩ := h
  rintro ⟨first', last', hform', hlong⟩
  obtain ⟨rfl, rfl⟩ := hform.unique hform'
  rcases hlong with hlong | hlong
  · exact absurd (length_le_of_int hform.first_ne hform.first_digits ha) hlong.not_ge
  · have hne : last' ≠ [] := by
      rintro rfl
      cases hlong
    rw [if_neg hne] at hb
    exact absurd (length_le_of_int hne hform.last_digits hb) hlong.not_ge

theorem selectWindow_spec (contentLength : Int) (clientRange : Option String) :
    (¬ Unreadable clientRange ∧
        ∃ w, selectWindow contentLength clientRange = .ok w ∧ w.Selected contentLength clientRange) ∨
      Unreadable clientRange ∧
        ∃ msg, selectWindow contentLength clientRange = .error (.valueError msg) := by
  unfold selectWindow
  split
  · next hnone =>
    refine .inl ⟨?_, _, rfl, .inr ⟨?_, rfl⟩⟩
    · rintro ⟨first, last, hform, -⟩
      rw [rangeForm_iff, hnone] at hform
      cases hform
    · rintro a b ⟨first, last, hform, -⟩
      rw [rangeForm_iff, hnone] at hform
      cases hform
  · next first last hsome =>
    have hform := rangeForm_iff.mpr hsome
    rcases intOf_cases hform.first_ne hform.first_digits with ⟨a, ha, hint⟩ | ⟨hlong, msg, hint⟩
    · rcases lastByte_cases contentLength hform.last_digits with ⟨b, hb, hlast⟩ | ⟨hlong, msg, hlast⟩
      · left
        simp only [hint, hlast, bind, Except.bind]
        have hasks : Asks contentLength clientRange a b := ⟨first, last, hform, ha, hb⟩
        refine ⟨not_unreadable_of_asks hasks, ?_⟩
        split
        · next hle => exact ⟨_, rfl, .inl ⟨a, b, hasks, hle.1, rfl⟩⟩
        · next hle =>
          refine ⟨_, rfl, .inr ⟨?_, rfl⟩⟩
          intro a' b' hasks'
          obtain ⟨rfl, rfl⟩ := hasks.unique hasks'
          omega
      · right
        refine ⟨⟨first, last, hform, .inr hlong⟩, msg, ?_⟩
        simp only [hint, hlast, bind, Except.bind]
    · right
      refine ⟨⟨first, last, hform, .inl hlong⟩, msg, ?_⟩
      simp only [hint, bind, Except.bind]

theorem Window.Selected.eq_whole {contentLength : Int} {clientRange : Option String} {w : Window}
    (h : w.Selected contentLength clientRange) (hw : w.isPartial = false) :
    w = .whole contentLength := by
  rcases h with ⟨a, b, -, -, rfl⟩ | ⟨-, rfl⟩
  · cases hw
  · rfl

theorem selected_of_selectWindow {contentLength : Int} {clientRange : Option String} {w : Window}
    (h : selectWindow contentLength clientRange = .ok w) :
    w.Selected contentLength clientRange := by
  rcases selectWindow_spec contentLength clientRange with ⟨-, w', hw', hsel⟩ | ⟨-, msg, herr⟩
  · rw [hw'] at h
    cases h
    exact hsel
  · rw [herr] at h
    cases h

theorem Window.Selected.bounds {contentLength : Int} {clientRange : Option String} {w : Window}
    (h : w.Selected contentLength clientRange) (hlen : 0 < contentLength) :
    0 ≤ w.start ∧ w.start ≤ w.stop ∧ w.stop < contentLength := by
  rcases h with ⟨a, b, ⟨first, last, hform, ha, -⟩, hle, rfl⟩ | ⟨-, rfl⟩
  · have hnonneg : 0 ≤ a := by
      rw [PyText.int_of_isDigit hform.first_ne hform.first_digits] at ha
      split at ha
      · cases ha; exact Int.natCast_nonneg _
      · cases ha
    refine ⟨hnonneg, hle, ?_⟩
    simp only
    omega
  · simp only [Window.whole]
    omega

variable {chunkSize start stop cur : Int} {sizes : Nat → Int} {assigned : List Url}

theorem index_of_rangeLoop {fuel idx : Nat} {rs : List ChunkRange}
    (h : rangeLoop chunkSize stop fuel start idx = some rs) :
    rs.map ChunkRange.index = List.range' idx rs.length := by
  induction fuel generalizing start idx rs with
  | zero =>
    rw [rangeLoop] at h
    split at h
    · cases h
    · cases h
      rfl
  | succ fuel ih =>
    rw [rangeLoop] at h
    split at h
    · obtain ⟨rest, hrest, rfl⟩ := Option.map_eq_some_iff.mp h
      rw [List.map_cons, ih hrest, List.length_cons, List.range'_succ]
    · cases h
      rfl

theorem index_of_perProxyLoop (assigned : List Url) (i : Nat) (cur : Int) :
    (perProxyLoop sizes stop assigned i cur).1.map ChunkRange.index =
      List.range' i (perProxyLoop sizes stop assigned i cur).1.length := by
  induction assigned generalizing i cur with
  | nil => rfl
  | cons p assigned ih =>
    rw [perProxyLoop]
    split
    · rfl
    · rw [List.map_cons, ih, List.length_cons, List.range'_succ]

theorem rangeLoop_spec (hsize : 1 ≤ chunkSize) {fuel : Nat} (idx : Nat) (hstart : start ≤ stop + 1)
    (hfuel : (stop - start + 1).toNat ≤ fuel) :
    ∃ rs, rangeLoop chunkSize stop fuel start idx = some rs ∧
      Tiles stop start (rs.map ChunkRange.bounds) := by
  induction fuel generalizing start idx with
  | zero =>
    refine ⟨[], if_neg (by omega), ?_⟩
    rw [List.map_nil, Tiles]
    omega
  | succ fuel ih =>
    rw [rangeLoop]
    split
    · have hnext : min (start + chunkSize - 1) stop + 1 ≤ stop + 1 := by omega
      obtain ⟨rs, hrs, htiles⟩ := ih (idx + 1) hnext (by omega)
      refine ⟨⟨start, min (start + chunkSize - 1) stop, idx⟩ :: rs, ?_, rfl, ?_, ?_, htiles⟩
      · simp only [hrs, Option.map_some]
      · show start ≤ min (start + chunkSize - 1) stop
        omega
      · exact min_le_right _ _
    · refine ⟨[], rfl, ?_⟩
      rw [List.map_nil, Tiles]
      omega

theorem buildRanges_spec (hsize : 1 ≤ chunkSize) (hstart : start ≤ stop + 1) :
    ∃ rs, buildRanges chunkSize start stop = some rs ∧ Partition start stop rs := by
  obtain ⟨rs, hrs, htiles⟩ := rangeLoop_spec hsize 0 hstart le_rfl
  exact ⟨rs, hrs, htiles, by rw [index_of_rangeLoop hrs, List.range_eq_range']⟩

theorem rangeLoop_eq_none (hsize : chunkSize ≤ 0) {fuel idx : Nat} (hstart : start ≤ stop) :
    rangeLoop chunkSize stop fuel start idx = none := by
  induction fuel generalizing start idx with
  | zero => exact if_pos hstart
  | succ fuel ih =>
    have hnext : min (start + chunkSize - 1) stop + 1 ≤ stop := by omega
    rw [rangeLoop, if_pos hstart]
    simp only [ih hnext, Option.map_none]

theorem buildRanges_of_lt (h : stop < start) : buildRanges chunkSize start stop = some [] := by
  have hfuel : (stop - start + 1).toNat = 0 := by omega
  rw [buildRanges, hfuel, rangeLoop, if_neg (by omega)]

theorem perProxyLoop_spec (hsizes : ∀ i, 1 ≤ sizes i) (assigned : List Url) (i : Nat)
    (hcur : cur ≤ stop + 1) :
    Tiles ((perProxyLoop sizes stop assigned i cur).2 - 1) cur
        ((perProxyLoop sizes stop assigned i cur).1.map ChunkRange.bounds) ∧
      (perProxyLoop sizes stop assigned i cur).2 ≤ stop + 1 ∧
      ((perProxyLoop sizes stop assigned i cur).1.length = assigned.length ∨
        (perProxyLoop sizes stop assigned i cur).2 = stop + 1 ∧
          (perProxyLoop sizes stop assigned i cur).1.length ≤ assigned.length) := by
  induction assigned generalizing i cur with
  | nil => exact ⟨by simp [perProxyLoop, Tiles], hcur, .inl rfl⟩
  | cons p assigned ih =>
    rw [perProxyLoop]
    split
    · exact ⟨by simp [Tiles], hcur, .inr ⟨by simp only; omega, Nat.zero_le _⟩⟩
    · have hsize := hsizes i
      have hnext : min (cur + sizes i - 1) stop + 1 ≤ stop + 1 := by omega
      obtain ⟨htiles, hle, hlen⟩ := ih (i + 1) hnext
      have hlast := htiles.le
      refine ⟨⟨rfl, ?_, ?_, htiles⟩, hle, ?_⟩
      · show cur ≤ min (cur + sizes i - 1) stop
        omega
      · show min (cur + sizes i - 1) stop ≤
          (perProxyLoop sizes stop assigned (i + 1) (min (cur + sizes i - 1) stop + 1)).2 - 1
        omega
      · simp only [List.length_cons]
        omega

def Indexed (ranges : List ChunkRange) : Prop :=
  ranges.map ChunkRange.index = List.range ranges.length

theorem indexed_of_buildRanges {rs : List ChunkRange} (h : buildRanges chunkSize start stop = some rs) :
    Indexed rs := by
  rw [Indexed, index_of_rangeLoop h, List.range_eq_range']

theorem indexed_of_applyPerProxyChunkSizes {ranges rs : List ChunkRange} {as : List Url}
    (hranges : Indexed ranges)
    (h : applyPerProxyChunkSizes sizes ranges assigned start stop chunkSize = some (rs, as)) :
    Indexed rs := by
  unfold applyPerProxyChunkSizes at h
  split at h
  · cases h
    exact hranges
  · obtain ⟨filler, hfiller, hout⟩ := Option.map_eq_some_iff.mp h
    cases hout
    rw [Indexed, List.map_append, index_of_perProxyLoop, index_of_rangeLoop hfiller,
      List.length_append, List.range_eq_range', ← List.range'_append_1, Nat.zero_add]

theorem length_extendLast (hne : assigned ≠ []) (n : Nat) :
    (extendLast assigned n).length = assigned.length + n := by
  rw [extendLast, List.getLast?_eq_some_getLast hne, List.length_append, List.length_replicate]

theorem mem_of_mem_extendLast {n : Nat} {p : Url} (h : p ∈ extendLast assigned n) :
    p ∈ assigned := by
  unfold extendLast at h
  split at h
  · next q hq =>
    rcases List.mem_append.mp h with h | h
    · exact h
    · rw [List.eq_of_mem_replicate h]
      exact List.mem_of_getLast? hq
  · exact h

theorem mem_of_applyPerProxyChunkSizes {ranges rs : List ChunkRange} {as : List Url}
    (h : applyPerProxyChunkSizes sizes ranges assigned start stop chunkSize = some (rs, as)) :
    ∀ p ∈ as, p ∈ assigned := by
  unfold applyPerProxyChunkSizes at h
  split at h
  · cases h
    exact fun _ hp => hp
  · obtain ⟨filler, -, hout⟩ := Option.map_eq_some_iff.mp h
    cases hout
    exact fun _ hp => mem_of_mem_extendLast (List.mem_of_mem_take hp)

theorem applyPerProxyChunkSizes_spec (hsize : 1 ≤ chunkSize) (hsizes : ∀ i, 1 ≤ sizes i)
    (hstart : start ≤ stop + 1) {ranges : List ChunkRange} (hranges : Partition start stop ranges)
    (hlen : assigned.length = ranges.length) :
    ∃ rs as, applyPerProxyChunkSizes sizes ranges assigned start stop chunkSize = some (rs, as) ∧
      Partition start stop rs ∧ as.length = rs.length := by
  unfold applyPerProxyChunkSizes
  split
  · exact ⟨ranges, assigned, rfl, hranges, hlen⟩
  · next hcard =>
    have hne : assigned ≠ [] := by
      rintro rfl
      simp at hcard
    obtain ⟨htiles, hle, hstop⟩ := perProxyLoop_spec hsizes assigned 0 hstart
    have hidx : (perProxyLoop sizes stop assigned 0 start).1.map ChunkRange.index = _ :=
      index_of_perProxyLoop assigned 0 start
    generalize perProxyLoop sizes stop assigned 0 start = out at htiles hidx hle hstop ⊢
    obtain ⟨perProxy, cur⟩ := out
    obtain ⟨filler, hfiller, htiles'⟩ := rangeLoop_spec hsize perProxy.length hle le_rfl
    refine ⟨_, _, by simp only [hfiller]; rfl, ⟨?_, ?_⟩, ?_⟩
    · rw [List.map_append]
      have hcur : cur - 1 + 1 = cur := by omega
      exact htiles.append (by omega) (hcur.symm ▸ htiles')
    · rw [List.map_append, hidx, index_of_rangeLoop hfiller, List.length_append, List.range_eq_range',
        ← List.range'_append_1, Nat.zero_add]
    · have hfill : perProxy.length < assigned.length → filler = [] := by
        intro hlt
        have hcur : cur = stop + 1 := by
          rcases hstop with hstop | hstop
          · exact absurd hstop hlt.ne
          · exact hstop.1
        cases filler with
        | nil => rfl
        | cons r rest =>
          obtain ⟨hr, hr', hr'', -⟩ := htiles'
          omega
      have hle' : perProxy.length ≤ assigned.length := by
        rcases hstop with hstop | hstop
        · exact hstop.le
        · exact hstop.2
      rw [List.length_take, length_extendLast hne, List.length_append]
      omega

def ChunkRange.expected (r : ChunkRange) : Int := r.stop - r.start + 1

def Consecutive (stop : Int) : Int → List ChunkRange → Prop
  | cur, [] => cur = stop + 1
  | cur, r :: rest => r.start = cur ∧ cur ≤ stop ∧ Consecutive stop (r.stop + 1) rest

structure Split (w : Window) (ranges : List ChunkRange) : Prop where
  consecutive : Consecutive w.stop w.start ranges
  indexed : Indexed ranges

theorem consecutive_of_tiles {rs : List ChunkRange} (h : Tiles stop start (rs.map ChunkRange.bounds)) :
    Consecutive stop start rs := by
  induction rs generalizing start with
  | nil => exact h
  | cons r rs ih =>
    obtain ⟨hstart, hle, hstop, hrest⟩ := h
    exact ⟨hstart, hstart ▸ hle.trans hstop, ih hrest⟩

theorem Partition.split {w : Window} {ranges : List ChunkRange}
    (h : Partition w.start w.stop ranges) : Split w ranges :=
  ⟨consecutive_of_tiles h.tiles, h.indices⟩

section Sizes

variable {rs : List ChunkRange}

theorem Consecutive.sum_eq (h : Consecutive stop cur rs) :
    (rs.map ChunkRange.expected).sum = stop + 1 - cur := by
  induction rs generalizing cur with
  | nil =>
    rw [Consecutive] at h
    rw [List.map_nil, List.sum_nil]
    omega
  | cons r rs ih =>
    obtain ⟨hstart, -, hrest⟩ := h
    rw [List.map_cons, List.sum_cons, ih hrest, ChunkRange.expected]
    omega

theorem Indexed.index_getElem (h : Indexed rs) {i : Nat} (hi : i < rs.length) : rs[i].index = i := by
  have hget : (rs.map ChunkRange.index)[i]? = (List.range rs.length)[i]? := congrArg (·[i]?) h
  rw [List.getElem?_map, List.getElem?_eq_getElem hi, List.getElem?_range hi] at hget
  exact Option.some.inj hget

theorem length_flatMap_data {data : Nat → Bytes} {k : Nat} (hk : k ≤ rs.length)
    (hsize : ∀ i r, i < k → rs[i]? = some r → ((data i).length : Int) = r.expected) :
    (((List.range k).flatMap data).length : Int) = ((rs.take k).map ChunkRange.expected).sum := by
  induction k with
  | zero => rfl
  | succ k ih =>
    have hlast := hsize k rs[k] k.lt_succ_self (List.getElem?_eq_getElem hk)
    rw [List.range_succ, List.flatMap_append, List.length_append, Nat.cast_add,
      ih (Nat.le_of_succ_le hk) fun i r hi => hsize i r (Nat.lt_succ_of_lt hi),
      List.take_add_one, List.getElem?_eq_getElem hk, List.map_append, List.sum_append]
    simp [hlast]

end Sizes

end ProxySplit
