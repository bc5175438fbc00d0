import ProxySplit.ProxyScore
import ProxySplit.Registry
import ProxySplit.PyText
import ProxySplit.Lib.Quoting

namespace ProxySplit

open Lib Exposition

/-- A line of `prometheus_lines` without the url. -/
structure Series where
  name : String
  result : Option String
  value : List Char

namespace Series

def front (x : Series) : List Char := x.name.toList ++ "\x7bproxy=\"".toList

def back (x : Series) : List Char :=
  match x.result with
  | none => "\"\x7d ".toList ++ x.value
  | some result => "\",result=\"".toList ++ result.toList ++ "\"\x7d ".toList ++ x.value

def line (x : Series) (url : Url) : List Char := x.front ++ url.toList ++ x.back

def sample (x : Series) (url : Url) : Sample where
  name := x.name.toList
  labels := ("proxy".toList, url.toList) :: x.result.toList.map fun result => ("result".toList, result.toList)
  value := x.value

end Series

/-- The comments of `prometheus_lines`. -/
def prometheusHelp : List (List Char) :=
  ["# HELP proxy_requests_total Total requests per proxy and result".toList,
    "# TYPE proxy_requests_total counter".toList,
    "# HELP proxy_bytes_total Bytes transferred per proxy".toList,
    "# TYPE proxy_bytes_total counter".toList,
    "# HELP proxy_latency_avg_ms Average latency per proxy in ms".toList,
    "# TYPE proxy_latency_avg_ms gauge".toList,
    "# HELP proxy_score Composite proxy score (0-1)".toList,
    "# TYPE proxy_score gauge".toList,
    "# HELP proxy_throughput_bps Estimated throughput in bytes/s".toList,
    "# TYPE proxy_throughput_bps gauge".toList,
    "# HELP proxy_banned Whether the proxy is currently banned".toList,
    "# TYPE proxy_banned gauge".toList]

def showNat (n : Nat) : List Char := (toString n).toList

section Text

variable {K : Type} [Field K] [LinearOrder K] [FloorRing K]

def PrometheusRow.series (showFloat : K → List Char) (timed : Bool) (row : PrometheusRow K) : List Series :=
  let showTimed (x : K) := if timed then showFloat x else showNat 0
  [⟨"proxy_requests_total", some "success", showNat row.success⟩,
    ⟨"proxy_requests_total", some "failure", showNat row.failure⟩,
    ⟨"proxy_bytes_total", none, showNat row.bytes⟩,
    ⟨"proxy_latency_avg_ms", none, showTimed row.latencyAvgMs⟩,
    ⟨"proxy_score", none, showFloat row.score⟩,
    ⟨"proxy_throughput_bps", none, showTimed row.throughputBps⟩,
    ⟨"proxy_banned", none, showNat (if row.banned then 1 else 0)⟩]

namespace ProxyStats

def series (showFloat : K → List Char) (w : ℚ → K) (now : ℚ) (bannedUrls : List Url)
    (p : Url × StatsEntry K) : List Series :=
  (prometheusRow w now bannedUrls p).2.series showFloat (p.2.latencies ≠ [])

/-- What `prometheus_lines` returns. -/
def prometheusText (showFloat : K → List Char) (w : ℚ → K) (now : ℚ) (s : ProxyStats K)
    (bannedUrls : List Url) : List Char :=
  let lines := prometheusHelp ++
    s.data.entries.flatMap fun p => (series showFloat w now bannedUrls p).map (·.line p.1)
  ['\n'].intercalate lines ++ ['\n']

end ProxyStats

end Text

inductive Counter
  | success
  | failure
  | bytes
  | banned

namespace Counter

def metric : Counter → String
  | success | failure => "proxy_requests_total"
  | bytes => "proxy_bytes_total"
  | banned => "proxy_banned"

def result : Counter → Option String
  | success => some "success"
  | failure => some "failure"
  | bytes | banned => none

def value (bannedUrls : List Url) (p : Url × StatsEntry K) : Counter → Nat
  | success => p.2.success
  | failure => p.2.failure
  | bytes => p.2.bytesTransferred
  | banned => if p.1 ∈ bannedUrls then 1 else 0

def read (c : Counter) (x : Sample) : Option (List Char × List Char) :=
  if x.name = c.metric.toList ∧ x.labels.lookup "result".toList = c.result.map String.toList then
    (x.labels.lookup "proxy".toList).map fun url => (url, x.value)
  else none

end Counter

/-- The text can be parsed, and each counter is read once for each tracked url. -/
def ProxyStats.RoundTrips (s : ProxyStats K) (bannedUrls : List Url) (text : List Char) : Prop :=
  ∃ out, parse text = some out ∧ ∀ c : Counter, (out.filterMap c.read).Perm
    (s.data.entries.map fun p => (p.1.toList, showNat (c.value bannedUrls p)))

/-- The url that `/proxy/add` gives to the registry. -/
def proxyAddUrl (url : String) : Option Url :=
  let url := String.ofList (PyText.strip url.toList)
  if url = "" then none else if supportedSchemes.any (startsWith url) then some url else none

section Lines

variable {x : Series} {url : Url}

/-- What the lines of `prometheus_lines` have in common. -/
structure Series.Wf (x : Series) : Prop where
  name : Name metricChar x.name.toList
  result : x.result ∈ [none, some "success", some "failure"]
  value : number x.value = true

theorem number_showNat (n : Nat) : number (showNat n) = true := by
  have htext : showNat n = Nat.toDigits 10 n := Nat.toList_repr
  refine number_of_digits (Bool.and_eq_true_iff.mpr ⟨decide_eq_true ?_, List.all_eq_true.mpr fun c hc => ?_⟩)
  · rw [htext]
    exact Nat.toDigits_ne_nil
  · rw [htext] at hc
    exact Nat.isDigit_of_mem_toDigits (by decide) (by decide) hc

theorem name_metric : ∀ name ∈ ["proxy_requests_total", "proxy_bytes_total", "proxy_latency_avg_ms",
    "proxy_score", "proxy_throughput_bps", "proxy_banned"], Name metricChar name.toList := by
  simp only [List.forall_mem_cons]
  exact ⟨name_of_all (by decide), name_of_all (by decide), name_of_all (by decide), name_of_all (by decide),
    name_of_all (by decide), name_of_all (by decide), List.forall_mem_nil _⟩

theorem name_proxy : Name labelChar "proxy".toList := name_of_all (by decide)

theorem name_result : Name labelChar "result".toList := name_of_all (by decide)

theorem PrometheusRow.wf_series {K : Type} {showFloat : K → List Char}
    (h : ∀ a, number (showFloat a) = true) (timed : Bool) (row : PrometheusRow K) :
    ∀ x ∈ row.series showFloat timed, x.Wf := by
  have htimed : ∀ a, number (if timed then showFloat a else showNat 0) = true := by
    intro a
    split
    · exact h a
    · exact number_showNat 0
  simp only [series, List.forall_mem_cons]
  exact ⟨⟨name_metric _ (by simp), by simp, number_showNat _⟩,
    ⟨name_metric _ (by simp), by simp, number_showNat _⟩,
    ⟨name_metric _ (by simp), by simp, number_showNat _⟩,
    ⟨name_metric _ (by simp), by simp, htimed _⟩,
    ⟨name_metric _ (by simp), by simp, h _⟩,
    ⟨name_metric _ (by simp), by simp, htimed _⟩,
    ⟨name_metric _ (by simp), by simp, number_showNat _⟩,
    List.forall_mem_nil _⟩

namespace Series

theorem Wf.sample (h : x.Wf) (url : Url) : (x.sample url).Wf where
  name := h.name
  labels := by
    refine List.forall_mem_cons.mpr ⟨name_proxy, fun l hl => ?_⟩
    obtain ⟨result, -, rfl⟩ := List.mem_map.mp hl
    exact name_result
  value := h.value

theorem plain_of_cases {result : String} (h : result = "success" ∨ result = "failure") :
    ∀ c ∈ result.toList, ¬ Special c := by
  rcases h with rfl | rfl
  · exact plain_of_all (by decide)
  · exact plain_of_all (by decide)

theorem Wf.plain_of_result (h : x.Wf) {result : String} (hresult : x.result = some result) :
    ∀ c ∈ result.toList, ¬ Special c := by
  have hmem := h.result
  rw [hresult] at hmem
  exact plain_of_cases (by simpa using hmem)

theorem Wf.line_eq (h : x.Wf) (hurl : ∀ c ∈ url.toList, ¬ Special c) :
    x.line url = (x.sample url).render := by
  have hfront : "\x7bproxy=\"".toList = '\x7b' :: ("proxy".toList ++ ['=', '"']) := by decide
  have hback : "\"\x7d ".toList = ['"', '\x7d', ' '] := by decide
  have hmiddle : "\",result=\"".toList = '"' :: ',' :: ("result".toList ++ ['=', '"']) := by decide
  cases hresult : x.result with
  | none =>
    simp only [line, front, back, Series.sample, Sample.render, renderLabels, hresult, hfront, hback,
      escape_eq_self hurl, Option.toList_none, List.map_nil]
    simp
  | some result =>
    simp only [line, front, back, Series.sample, Sample.render, renderLabels, hresult, hfront, hback, hmiddle,
      escape_eq_self hurl, Option.toList_some, List.map_cons, List.map_nil,
      escape_eq_self (h.plain_of_result hresult)]
    simp

theorem Wf.not_mem_front (h : x.Wf) : '\n' ∉ x.front := by
  have hname : '\n' ∉ x.name.toList := fun hmem => absurd (h.name.1 _ hmem) (by decide)
  simp [front, hname]

theorem Wf.not_mem_back (h : x.Wf) : '\n' ∉ x.back := by
  have hvalue : '\n' ∉ x.value := fun hmem => (bare_of_number h.value _ hmem).2.1 rfl
  unfold back
  split
  · simp [hvalue]
  · next result hresult =>
    have hresult : '\n' ∉ result.toList := fun hmem => h.plain_of_result hresult _ hmem (.inr (.inr rfl))
    simp [hvalue, hresult]

theorem Wf.eq_nil_of_front (h : x.Wf) {front back : List Char} (heq : x.front = front ++ '"' :: back) :
    back = [] := by
  have hname : '"' ∉ x.name.toList ++ "\x7bproxy=".toList := by
    have hname : '"' ∉ x.name.toList := fun hmem => absurd (h.name.1 _ hmem) (by decide)
    simp [hname]
  have hfront : x.front = (x.name.toList ++ "\x7bproxy=".toList) ++ '"' :: [] := by
    have hopen : "\x7bproxy=\"".toList = "\x7bproxy=".toList ++ ['"'] := by decide
    rw [Series.front, hopen, List.append_assoc]
  rcases eq_or_of_append_cons hname (hfront.symm.trans heq) with ⟨-, hback⟩ | ⟨mid, -, hmid⟩
  · exact hback
  · exact absurd hmid (by simp)

theorem Wf.of_back (h : x.Wf) {back rest : List Char} (heq : x.back = back ++ '"' :: rest)
    (hback : back ≠ []) : ∃ result, (result = "success" ∨ result = "failure") ∧
      (back = '"' :: ",result=".toList ∧ result.toList <+: rest ∨
        back = '"' :: (",result=".toList ++ '"' :: result.toList)) := by
  have hend : ∀ mid, "\x7d ".toList ++ x.value ≠ mid ++ '"' :: rest := by
    intro mid hmid
    have hvalue : '"' ∉ x.value := fun hmem => (bare_of_number h.value _ hmem).2.2 rfl
    have hmem : '"' ∈ "\x7d ".toList ++ x.value := hmid ▸ List.mem_append_right _ (.head _)
    simp [hvalue] at hmem
  obtain ⟨d, back, rfl⟩ := List.exists_cons_of_ne_nil hback
  unfold Series.back at heq
  split at heq
  · have hclose : "\"\x7d ".toList = '"' :: "\x7d ".toList := by decide
    rw [hclose, List.cons_append, List.cons_append] at heq
    exact absurd (List.cons.inj heq).2 (hend back)
  · next result hresult =>
    have hplain : '"' ∉ result.toList := fun hmem => h.plain_of_result hresult _ hmem (.inr (.inl rfl))
    have hmem := h.result
    rw [hresult] at hmem
    have hline : "\",result=\"".toList ++ result.toList ++ "\"\x7d ".toList ++ x.value =
        '"' :: (",result=".toList ++ '"' :: (result.toList ++ '"' :: ("\x7d ".toList ++ x.value))) := by simp
    rw [hline, List.cons_append] at heq
    obtain ⟨rfl, htail⟩ := List.cons.inj heq
    refine ⟨result, by simpa using hmem, ?_⟩
    rcases eq_or_of_append_cons (by decide) htail with ⟨rfl, rfl⟩ | ⟨mid, rfl, hmid⟩
    · exact .inl ⟨rfl, List.prefix_append _ _⟩
    · rcases eq_or_of_append_cons hplain hmid with ⟨rfl, -⟩ | ⟨mid', -, hmid⟩
      · exact .inr rfl
      · exact absurd hmid (hend mid')

theorem not_closed_of_result {result : String} (h : result = "success" ∨ result = "failure")
    (rest : List Char) : ¬ Closed (result.toList ++ rest) := by
  have hnone : ∀ {c : Char}, isBlank c = false → c ≠ ',' → c ≠ '\x7d' → ∀ rest, ¬ Closed (c :: rest) := by
    intro c hblank hcomma hbrace rest hclosed
    rw [Closed, expect_of_ne hblank hcomma, expect_of_ne hblank hbrace] at hclosed
    exact hclosed.elim Bool.noConfusion Bool.noConfusion
  rcases h with rfl | rfl
  · exact hnone (by decide) (by decide) (by decide) _
  · exact hnone (by decide) (by decide) (by decide) _

theorem Wf.length_lt (h : x.Wf) {l value : List Char} (hl : l ∈ (x.line url).splitOn '\n')
    (hquoted : Quoted l value) {c : Char} (hc : Special c) (hmem : c ∈ value) :
    value.length < url.toList.length := by
  obtain ⟨p, y, q, rfl, hp, hq, hlen⟩ := exists_of_mem_splitOn h.not_mem_front h.not_mem_back hl
  have hopen : ∀ front back, p = front ++ '"' :: back → back = [] := by
    rintro front back heq
    rcases hp with rfl | rfl
    · exact h.eq_nil_of_front heq
    · exact absurd heq (by simp)
  rcases hquoted.length_lt_or hopen hc hmem with
    hlt | ⟨front, raw, back, rest, hback, hraw, hrest, hvalue, hclosed⟩
  · exact hlt.trans_le hlen
  -- the quote that closes the value is none that the url brings
  exfalso
  rcases hq with rfl | rfl
  · obtain ⟨result, hresult, ⟨-, more, rfl⟩ | rfl⟩ := h.of_back hrest hback
    · exact not_closed_of_result hresult more hclosed
    · have hplain := plain_of_cases hresult
      have hraw' : (p ++ y ++ '"' :: ",result=".toList) ++ '"' :: result.toList = front ++ '"' :: raw := by
        rw [hraw]
        simp
      have hquote : '"' ∉ result.toList := fun hmem => hplain _ hmem (.inr (.inl rfl))
      rcases eq_or_of_append_cons' hquote hraw' with ⟨-, rfl⟩ | ⟨mid, rfl, hmid⟩
      · have heq := hvalue.eq fun hmem => hplain _ hmem (.inl rfl)
        exact hplain c (heq ▸ hmem) hc
      · obtain ⟨mid', rfl⟩ := hvalue.exists_backslash rfl
        have hequals : p ++ y ++ '"' :: ",result=".toList =
            (p ++ y ++ '"' :: ",result".toList) ++ ['='] := by simp
        have hbackslash : front ++ '"' :: (mid' ++ ['\\']) = (front ++ '"' :: mid') ++ ['\\'] := by simp
        rw [hequals, hbackslash] at hmid
        exact absurd (List.append_inj_right' hmid rfl) (by decide)
  · exact absurd hrest (by simp)

end Series

end Lines

theorem Series.read_sample (x : Series) (c : Counter) (url : Url) : c.read (x.sample url) =
    if x.name = c.metric ∧ x.result = c.result then some (url.toList, x.value) else none := by
  have hresult : (x.sample url).labels.lookup "result".toList = x.result.map String.toList := by
    have hne : ("result".toList == "proxy".toList) = false := by decide
    rw [Series.sample, List.lookup_cons, hne]
    cases x.result with
    | none => rfl
    | some result => exact List.lookup_cons_self
  have hproxy : (x.sample url).labels.lookup "proxy".toList = some url.toList := List.lookup_cons_self
  have hname : (x.sample url).name = c.metric.toList ↔ x.name = c.metric := String.toList_inj
  have hsame : x.result.map String.toList = c.result.map String.toList ↔ x.result = c.result :=
    (Option.map_injective fun _ _ => String.toList_inj.mp).eq_iff
  rw [Counter.read, hresult, hproxy]
  simp only [hname, hsame]
  rfl

theorem line_of_help : ∀ l ∈ prometheusHelp, '\n' ∉ l ∧ Exposition.line l = some [] := by
  have hall : prometheusHelp.all (fun l => l.head? = some '#' && l.all (· ≠ '\n')) = true := by
    decide +kernel
  intro l hl
  have hl := List.all_eq_true.mp hall l hl
  rw [Bool.and_eq_true, decide_eq_true_eq] at hl
  obtain ⟨l', rfl⟩ := List.head?_eq_some_iff.mp hl.1
  refine ⟨fun hmem => ?_, line_comment l'⟩
  simpa using List.all_eq_true.mp hl.2 _ hmem

namespace ProxyStats

section Parsed

variable {K : Type} [Field K] [LinearOrder K] [FloorRing K] {showFloat : K → List Char} {w : ℚ → K} {now : ℚ}
  {s : ProxyStats K} {bannedUrls : List Url}

def samples (showFloat : K → List Char) (w : ℚ → K) (now : ℚ) (s : ProxyStats K) (bannedUrls : List Url) :
    List Sample :=
  s.data.entries.flatMap fun p => (series showFloat w now bannedUrls p).map (·.sample p.1)

variable (showFloat w now s bannedUrls) in
theorem prometheusText_eq : s.prometheusText showFloat w now bannedUrls = joinLines (prometheusHelp ++
    s.data.entries.flatMap fun p => (series showFloat w now bannedUrls p).map (·.line p.1)) :=
  intercalate_append (List.append_ne_nil_of_left_ne_nil (List.cons_ne_nil _ _) _)

theorem parse_prometheusText (hshow : ∀ a, number (showFloat a) = true)
    (h : ∀ url ∈ s.data.keys, ∀ c ∈ url.toList, ¬ Special c) :
    parse (s.prometheusText showFloat w now bannedUrls) = some (s.samples showFloat w now bannedUrls) := by
  have hlines : (s.data.entries.flatMap fun p => (series showFloat w now bannedUrls p).map (·.line p.1)) =
      (s.samples showFloat w now bannedUrls).map Sample.render := by
    rw [samples, List.map_flatMap]
    refine List.flatMap_congr fun p hp => ?_
    rw [List.map_map]
    refine List.map_congr_left fun x hx => ?_
    exact (PrometheusRow.wf_series hshow _ _ x hx).line_eq (h p.1 (List.mem_map_of_mem hp))
  rw [prometheusText_eq, hlines]
  refine parse_render line_of_help fun x hx => ?_
  obtain ⟨p, -, hx⟩ := List.mem_flatMap.mp hx
  obtain ⟨y, hy, rfl⟩ := List.mem_map.mp hx
  exact (PrometheusRow.wf_series hshow _ _ y hy).sample p.1

theorem read_series (c : Counter) (p : Url × StatsEntry K) :
    ((series showFloat w now bannedUrls p).map (·.sample p.1)).filterMap c.read =
      [(p.1.toList, showNat (c.value bannedUrls p))] := by
  have hread : (c.read ∘ fun x : Series => x.sample p.1) = fun x =>
      if x.name = c.metric ∧ x.result = c.result then some (p.1.toList, x.value) else none :=
    funext fun x => x.read_sample c p.1
  rw [List.filterMap_map, hread, series, PrometheusRow.series]
  cases c with
  | success => simp [Counter.metric, Counter.result, Counter.value, prometheusRow]
  | failure => simp [Counter.metric, Counter.result, Counter.value, prometheusRow]
  | bytes => simp [Counter.metric, Counter.result, Counter.value, prometheusRow]
  | banned => simp [Counter.metric, Counter.result, Counter.value, prometheusRow]

theorem read_samples (c : Counter) : (s.samples showFloat w now bannedUrls).filterMap c.read =
    s.data.entries.map fun p => (p.1.toList, showNat (c.value bannedUrls p)) := by
  rw [samples, List.filterMap_flatMap, List.map_eq_flatMap]
  exact List.flatMap_congr fun p _ => read_series c p

theorem line_cases {l : List Char} {ys : List Sample}
    (hl : l ∈ (s.prometheusText showFloat w now bannedUrls).splitOn '\n') (h : Exposition.line l = some ys) :
    ys = [] ∨
      ∃ p ∈ s.data.entries, ∃ x ∈ series showFloat w now bannedUrls p, l ∈ (x.line p.1).splitOn '\n' := by
  rw [prometheusText_eq, splitOn_joinLines, List.mem_append, List.mem_singleton] at hl
  rcases hl with hl | rfl
  · obtain ⟨t, ht, hl⟩ := List.mem_flatMap.mp hl
    rcases List.mem_append.mp ht with hhelp | ht
    · obtain ⟨hlf, hline⟩ := line_of_help t hhelp
      rw [List.splitOn_eq_singleton hlf, List.mem_singleton] at hl
      rw [hl, hline] at h
      exact .inl (Option.some.inj h).symm
    · obtain ⟨p, hp, ht⟩ := List.mem_flatMap.mp ht
      obtain ⟨x, hx, rfl⟩ := List.mem_map.mp ht
      exact .inr ⟨p, hp, x, hx, hl⟩
  · exact .inl (Option.some.inj h).symm

theorem not_roundTrips (hshow : ∀ a, number (showFloat a) = true) {url : Url} (hurl : url ∈ s.data.keys)
    {c : Char} (hc : c ∈ url.toList) (hspecial : Special c) :
    ¬ s.RoundTrips bannedUrls (s.prometheusText showFloat w now bannedUrls) := by
  rintro ⟨out, hout, hreadings⟩
  have hfinite : {url ∈ {url | url ∈ s.data.keys} | ∃ c ∈ url.toList, Special c}.Finite :=
    (List.finite_toSet s.data.keys).subset fun _ h => h.1
  obtain ⟨longest, ⟨hlongest, d, hd, hdspecial⟩, hmax⟩ :=
    Set.exists_max_image _ (fun url => url.toList.length) hfinite ⟨url, hurl, c, hc, hspecial⟩
  obtain ⟨p, hp, rfl⟩ := List.mem_map.mp hlongest
  have hread := (hreadings .bytes).mem_iff.mpr (List.mem_map_of_mem hp)
  obtain ⟨x, hx, hread⟩ := List.mem_filterMap.mp hread
  obtain ⟨_, hlabel, heq⟩ := Option.map_eq_some_iff.mp (Option.ite_none_right_eq_some.mp hread).2
  obtain ⟨rfl, -⟩ := Prod.mk.inj heq
  obtain ⟨before, after, heq, -⟩ := List.lookup_eq_some_iff.mp hlabel
  have hlabel : ("proxy".toList, p.1.toList) ∈ x.labels := heq ▸ List.mem_append_right _ (.head _)
  obtain ⟨l, hl, ys, hline, hx⟩ := exists_line_of_parse hout hx
  rcases line_cases hl hline with rfl | ⟨q, hq, y, hy, hsplit⟩
  · cases hx
  · have hwf := PrometheusRow.wf_series hshow _ _ y hy
    by_cases hplain : ∀ c ∈ q.1.toList, ¬ Special c
    · have hrender := hwf.line_eq hplain
      have hsample := hwf.sample q.1
      rw [hrender, List.splitOn_eq_singleton hsample.not_mem_render, List.mem_singleton] at hsplit
      rw [hsplit, line_render hsample] at hline
      cases hline
      obtain rfl := List.mem_singleton.mp hx
      rcases List.mem_cons.mp hlabel with heq | hresult
      · exact hplain d ((Prod.mk.inj heq).2 ▸ hd) hdspecial
      · obtain ⟨result, -, heq⟩ := List.mem_map.mp hresult
        exact absurd (Prod.mk.inj heq).1 (by decide)
    · push Not at hplain
      have hlt := hwf.length_lt hsplit (quoted_of_line hline x hx _ hlabel) hdspecial hd
      exact absurd (hmax q.1 ⟨List.mem_map_of_mem hq, hplain⟩) (Nat.not_le_of_lt hlt)

end Parsed

end ProxyStats

theorem roundTrips_iff {K : Type} [Field K] [LinearOrder K] [FloorRing K] (showFloat : K → List Char)
    (hshow : ∀ a, number (showFloat a) = true) (w : ℚ → K) (now : ℚ) (s : ProxyStats K)
    (bannedUrls : List Url) :
    s.RoundTrips bannedUrls (s.prometheusText showFloat w now bannedUrls) ↔
      ∀ url ∈ s.data.keys, ∀ c ∈ url.toList, ¬ Special c := by
  constructor
  · intro h url hurl c hc hspecial
    exact ProxyStats.not_roundTrips hshow hurl hc hspecial h
  · intro h
    refine ⟨_, ProxyStats.parse_prometheusText hshow h, fun c => ?_⟩
    rw [ProxyStats.read_samples]

def oneProxy (url : Url) : ProxyStats ℚ := ProxyStats.empty.recordSuccess 0 url 1000 20

def oneHalf (_ : ℚ) : List Char := "0.5".toList

theorem number_oneHalf (a : ℚ) : number (oneHalf a) = true := by
  unfold oneHalf
  decide

theorem roundTrips_plain : (oneProxy "http://10.0.0.1:8080").RoundTrips ["http://10.0.0.1:8080"]
    ((oneProxy "http://10.0.0.1:8080").prometheusText oneHalf (fun _ => 1) 0 ["http://10.0.0.1:8080"]) := by
  refine (roundTrips_iff oneHalf number_oneHalf _ _ _ _).mpr fun url hurl => ?_
  obtain rfl : url = "http://10.0.0.1:8080" := List.mem_singleton.mp hurl
  exact plain_of_all (by decide)

theorem quote_not_escaped : proxyAddUrl "http://u:\"@10.0.0.1:8080" = some "http://u:\"@10.0.0.1:8080" ∧
    ¬ (oneProxy "http://u:\"@10.0.0.1:8080").RoundTrips []
      ((oneProxy "http://u:\"@10.0.0.1:8080").prometheusText oneHalf (fun _ => 1) 0 []) := by
  refine ⟨by decide +kernel, ?_⟩
  have hquote : '"' ∈ "http://u:\"@10.0.0.1:8080".toList := by decide
  exact ProxyStats.not_roundTrips number_oneHalf (List.mem_singleton.mpr rfl) hquote (.inr (.inl rfl))

end ProxySplit
