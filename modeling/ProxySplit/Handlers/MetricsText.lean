import ProxySplit.PrometheusText
import ProxySplit.Lib.Families

namespace ProxySplit

open Lib Exposition

def bareLine (name : String) (value : Nat) : List Char := name.toList ++ ' ' :: showNat value

def bareSample (name : String) (value : Nat) : Sample := ⟨name.toList, [], showNat value⟩

structure Family where
  name : String
  help : String
  type : String
  deriving DecidableEq

namespace Family

def helpLine (f : Family) : List Char := "# HELP ".toList ++ f.name.toList ++ ' ' :: f.help.toList

def typeLine (f : Family) : List Char := "# TYPE ".toList ++ f.name.toList ++ ' ' :: f.type.toList

def lines (f : Family) (value : Nat) : List (List Char) := [f.helpLine, f.typeLine, bareLine f.name value]

structure Wf (f : Family) : Prop where
  name : Name metricChar f.name.toList
  other : ∀ c : Counter, f.name ≠ c.metric
  comments : ∀ l ∈ [f.helpLine, f.typeLine], '\n' ∉ l ∧ line l = some []
  help : typed? f.helpLine = none
  type : typed? f.typeLine = some f.name.toList

end Family

/-- What `/metrics` looks at besides the statistics: `REGISTRY`, `BREAKER` and `CHUNK_SIZER` of its module,
the counters of the cache, and the time. -/
structure MetricsView where
  uptime : Nat
  monotonic : ℚ
  registry : Option PoolView
  breaker : Option CircuitBreaker
  sizer : Option Nat
  cacheHits : Nat
  cacheMisses : Nat
  cacheSize : Nat

namespace MetricsView

def blocked (v : MetricsView) : List Url := v.breaker.elim [] (·.blockedUrls v.monotonic)

def poolSize (v : MetricsView) : Nat := v.registry.elim 0 fun r => r.registry.all.length

def avail (v : MetricsView) : Nat := v.registry.elim 0 fun r => (r.available none).length

def metrics (v : MetricsView) : List (Family × Nat) :=
  [(⟨"proxy_server_uptime_seconds", "Uptime", "counter"⟩, v.uptime),
    (⟨"proxy_pool_size", "Total proxies", "gauge"⟩, v.poolSize),
    (⟨"proxy_pool_available", "Available proxies", "gauge"⟩, v.avail),
    (⟨"proxy_pool_blocked", "Circuit-broken proxies", "gauge"⟩, v.blocked.length),
    (⟨"proxy_chunk_size_kb", "Current adaptive chunk size in KB", "gauge"⟩, v.sizer.elim 0 (· / 1024)),
    (⟨"proxy_cache_hits", "Total cache hits", "counter"⟩, v.cacheHits),
    (⟨"proxy_cache_misses", "Total cache misses", "counter"⟩, v.cacheMisses),
    (⟨"proxy_cache_size", "Current cached entries", "gauge"⟩, v.cacheSize)]

/-- What `_push_loop` adds, without comments. -/
def pushed (v : MetricsView) : List (String × Nat) :=
  [("proxy_pool_size", v.poolSize), ("proxy_pool_available", v.avail),
    ("proxy_pool_blocked", v.blocked.length)]

end MetricsView

section Text

variable {K : Type} [Field K] [LinearOrder K] [FloorRing K]

/-- `/metrics`. -/
def metricsText (showFloat : K → List Char) (w : ℚ → K) (now : ℚ) (s : ProxyStats K) (v : MetricsView) :
    List Char :=
  s.prometheusText showFloat w now v.blocked ++ '\n' :: joinLines (v.metrics.flatMap fun m => m.1.lines m.2)

/-- What `_push_loop` posts. -/
def pushText (showFloat : K → List Char) (w : ℚ → K) (now : ℚ) (s : ProxyStats K) (v : MetricsView) :
    List Char :=
  s.prometheusText showFloat w now v.blocked ++
    joinLines (v.pushed.map fun m => bareLine m.1 m.2)

end Text

def counters : List Counter := [.success, .failure, .bytes, .banned]

def Family.check (f : Family) : Bool :=
  f.name.toList.all metricChar && !(f.name.toList = [] || f.name.toList.head?.any Char.isDigit) &&
    counters.all (fun c => f.name ≠ c.metric) &&
    [f.helpLine, f.typeLine].all (fun l => l.all (· ≠ '\n') && decide (line l = some [])) &&
    decide (typed? f.helpLine = none) && decide (typed? f.typeLine = some f.name.toList)

theorem Family.wf_of_check {f : Family} (h : f.check = true) : f.Wf := by
  simp only [check, Bool.and_eq_true, decide_eq_true_eq] at h
  obtain ⟨⟨⟨⟨hname, hother⟩, hcomments⟩, hhelp⟩, htype⟩ := h
  refine ⟨name_of_all (by simpa using hname), fun c => ?_, fun l hl => ?_, hhelp, htype⟩
  · have hc : c ∈ counters := by cases c <;> simp [counters]
    exact of_decide_eq_true (List.all_eq_true.mp hother c hc)
  · have hline := List.all_eq_true.mp hcomments l hl
    simp only [Bool.and_eq_true, List.all_eq_true, decide_eq_true_eq] at hline
    exact ⟨fun hmem => hline.1 _ hmem rfl, hline.2⟩

theorem types_help : prometheusHelp.filterMap typed? = ["proxy_requests_total".toList,
    "proxy_bytes_total".toList, "proxy_latency_avg_ms".toList, "proxy_score".toList,
    "proxy_throughput_bps".toList, "proxy_banned".toList] := by decide +kernel

namespace MetricsView

def families : List Family := (⟨0, 0, none, none, none, 0, 0, 0⟩ : MetricsView).metrics.map Prod.fst

theorem map_fst_metrics (v : MetricsView) : v.metrics.map Prod.fst = families := rfl

theorem families_check : families.all Family.check = true := by decide +kernel

theorem nodup_names : (prometheusHelp.filterMap typed? ++ families.map fun f => f.name.toList).Nodup := by
  rw [types_help]
  decide +kernel

theorem wf_of_mem {v : MetricsView} : ∀ m ∈ v.metrics, m.1.Wf := by
  intro m hm
  have hfamily : m.1 ∈ families := v.map_fst_metrics ▸ List.mem_map_of_mem hm
  exact Family.wf_of_check (List.all_eq_true.mp families_check _ hfamily)

theorem exists_of_mem_pushed {v : MetricsView} {m : String × Nat} (hm : m ∈ v.pushed) :
    ∃ f ∈ families, f.name = m.1 := by
  have hnames : v.pushed.map Prod.fst ⊆ families.map Family.name := by
    change ["proxy_pool_size", "proxy_pool_available", "proxy_pool_blocked"] ⊆ _
    decide +kernel
  exact List.mem_map.mp (hnames (List.mem_map_of_mem hm))

theorem wf_of_mem_families {f : Family} (h : f ∈ families) : f.Wf :=
  Family.wf_of_check (List.all_eq_true.mp families_check f h)

end MetricsView

theorem Family.Wf.comments_cases {f : Family} (h : f.Wf) :
    ('\n' ∉ f.helpLine ∧ line f.helpLine = some []) ∧ '\n' ∉ f.typeLine ∧ line f.typeLine = some [] :=
  ⟨h.comments _ (.head _), h.comments _ (.tail _ (.head _))⟩

section Lines

variable {f : Family} {name : String} {value : Nat}

theorem line_bareLine (h : Name metricChar name.toList) (value : Nat) :
    line (bareLine name value) = some [bareSample name value] := line_bare h (number_showNat value)

theorem not_mem_bareLine (h : Name metricChar name.toList) (value : Nat) : '\n' ∉ bareLine name value := by
  have hname : '\n' ∉ name.toList := fun hmem => absurd (h.1 _ hmem) (by decide)
  have hvalue : '\n' ∉ showNat value := fun hmem => (bare_of_number (number_showNat value) _ hmem).2.1 rfl
  simp [bareLine, hname, hvalue]

theorem parse_bareLines {ms : List (String × Nat)} (h : ∀ m ∈ ms, Name metricChar m.1.toList) :
    parse (joinLines (ms.map fun m => bareLine m.1 m.2)) = some (ms.map fun m => bareSample m.1 m.2) := by
  induction ms with
  | nil => rfl
  | cons m ms ih =>
    obtain ⟨hm, hms⟩ := List.forall_mem_cons.mp h
    rw [List.map_cons, joinLines_cons, parse_append_cons (not_mem_bareLine hm m.2), line_bareLine hm, ih hms]
    rfl

theorem parse_families {ms : List (Family × Nat)} (h : ∀ m ∈ ms, m.1.Wf) :
    parse (joinLines (ms.flatMap fun m => m.1.lines m.2)) =
      some (ms.map fun m => bareSample m.1.name m.2) := by
  induction ms with
  | nil => rfl
  | cons m ms ih =>
    obtain ⟨hm, hms⟩ := List.forall_mem_cons.mp h
    obtain ⟨⟨hhelp, hhelpLine⟩, htype, htypeLine⟩ := hm.comments_cases
    have hlines : (m :: ms).flatMap (fun m => m.1.lines m.2) = m.1.helpLine :: m.1.typeLine ::
        bareLine m.1.name m.2 :: ms.flatMap fun m => m.1.lines m.2 := rfl
    rw [hlines, joinLines_cons, parse_append_cons hhelp, hhelpLine, joinLines_cons, parse_append_cons htype,
      htypeLine, joinLines_cons, parse_append_cons (not_mem_bareLine hm.name m.2), line_bareLine hm.name,
      ih hms]
    rfl

theorem read_bareSample (h : f.Wf) (value : Nat) (c : Counter) : c.read (bareSample f.name value) = none := by
  have hname : f.name.toList ≠ c.metric.toList := fun heq => h.other c (String.toList_inj.mp heq)
  rw [Counter.read, bareSample, if_neg fun h => hname h.1]

theorem declared_families {ms : List (Family × Nat)} {seen : List (List Char)} (h : ∀ m ∈ ms, m.1.Wf)
    (hnodup : (seen ++ ms.map fun m => m.1.name.toList).Nodup) :
    Declared seen (ms.flatMap fun m => m.1.lines m.2) := by
  induction ms generalizing seen with
  | nil => exact trivial
  | cons m ms ih =>
    obtain ⟨hm, hms⟩ := List.forall_mem_cons.mp h
    obtain ⟨⟨-, hhelpLine⟩, -, htypeLine⟩ := hm.comments_cases
    have hlines : (m :: ms).flatMap (fun m => m.1.lines m.2) = m.1.helpLine :: m.1.typeLine ::
        bareLine m.1.name m.2 :: ms.flatMap fun m => m.1.lines m.2 := rfl
    have hsplit : seen ++ (m :: ms).map (fun m => m.1.name.toList) =
        (seen ++ [m.1.name.toList]) ++ ms.map fun m => m.1.name.toList := by simp
    have hnew : m.1.name.toList ∉ seen := by
      rw [hsplit] at hnodup
      have hseen := hnodup.of_append_left
      exact fun hmem => (List.nodup_append.mp hseen).2.2 _ hmem _ (.head _) rfl
    have hbare : typed? (bareLine m.1.name m.2) = none := typed?_append hm.name _
    rw [hlines, Declared, Declared, Declared, hhelpLine, htypeLine, line_bareLine hm.name, hm.help, hm.type,
      hbare]
    simp only [Option.toList_none, Option.toList_some, List.append_nil]
    refine ⟨by simp, by simp, by simp, by simpa using hnew, by simp [bareSample], by simp, ih hms ?_⟩
    rwa [← hsplit]

end Lines

section Readings

variable {K : Type} [Field K] [LinearOrder K] [FloorRing K] {showFloat : K → List Char} {w : ℚ → K} {now : ℚ}
  {s : ProxyStats K} {v : MetricsView} {bannedUrls : List Url}

omit [Field K] [LinearOrder K] [FloorRing K] in
theorem roundTrips_iff_of_parse {text whole : List Char} {ys : List Sample}
    (hparse : parse whole = (parse text).map (· ++ ys)) (hys : ∀ y ∈ ys, ∀ c : Counter, c.read y = none) :
    s.RoundTrips bannedUrls whole ↔ s.RoundTrips bannedUrls text := by
  have hread : ∀ (c : Counter) (xs : List Sample), (xs ++ ys).filterMap c.read = xs.filterMap c.read := by
    intro c xs
    rw [List.filterMap_append, List.filterMap_eq_nil_iff.mpr fun y hy => hys y hy c, List.append_nil]
  constructor
  · rintro ⟨out, hout, hperm⟩
    rw [hparse] at hout
    obtain ⟨xs, hxs, rfl⟩ := Option.map_eq_some_iff.mp hout
    exact ⟨xs, hxs, fun c => hread c xs ▸ hperm c⟩
  · rintro ⟨xs, hxs, hperm⟩
    refine ⟨xs ++ ys, by rw [hparse, hxs, Option.map_some], fun c => ?_⟩
    rw [hread]
    exact hperm c

theorem parse_prometheusText_append (rest : List Char) {ys : List Sample} (hrest : parse rest = some ys) :
    parse (s.prometheusText showFloat w now bannedUrls ++ rest) =
      (parse (s.prometheusText showFloat w now bannedUrls)).map (· ++ ys) := by
  rw [ProxyStats.prometheusText, List.append_assoc, List.singleton_append, parse_append, hrest]
  cases parse (_ ++ ['\n']) with
  | none => rfl
  | some xs => rfl

theorem parse_metricsText : parse (metricsText showFloat w now s v) =
    (parse (s.prometheusText showFloat w now v.blocked)).map
      (· ++ v.metrics.map fun m => bareSample m.1.name m.2) := by
  refine parse_prometheusText_append _ ?_
  rw [← List.nil_append ('\n' :: _), parse_append_cons List.not_mem_nil,
    parse_families MetricsView.wf_of_mem]
  rfl

theorem parse_pushText : parse (pushText showFloat w now s v) =
    (parse (s.prometheusText showFloat w now v.blocked)).map
      (· ++ v.pushed.map fun m => bareSample m.1 m.2) := by
  refine parse_prometheusText_append _ (parse_bareLines fun m hm => ?_)
  obtain ⟨f, hf, heq⟩ := MetricsView.exists_of_mem_pushed hm
  exact heq ▸ (MetricsView.wf_of_mem_families hf).name

theorem read_metrics : ∀ y ∈ v.metrics.map (fun m => bareSample m.1.name m.2),
    ∀ c : Counter, c.read y = none := by
  intro y hy c
  obtain ⟨m, hm, rfl⟩ := List.mem_map.mp hy
  exact read_bareSample (MetricsView.wf_of_mem m hm) m.2 c

theorem read_pushed : ∀ y ∈ v.pushed.map (fun m => bareSample m.1 m.2), ∀ c : Counter, c.read y = none := by
  intro y hy c
  obtain ⟨m, hm, rfl⟩ := List.mem_map.mp hy
  obtain ⟨f, hf, heq⟩ := MetricsView.exists_of_mem_pushed hm
  exact heq ▸ read_bareSample (MetricsView.wf_of_mem_families hf) m.2 c

def seriesOf (x : Sample) : List Char × List (List Char × List Char) := (x.name, x.labels)

def seriesNames : List (String × Option String) :=
  [("proxy_requests_total", some "success"), ("proxy_requests_total", some "failure"),
    ("proxy_bytes_total", none), ("proxy_latency_avg_ms", none), ("proxy_score", none),
    ("proxy_throughput_bps", none), ("proxy_banned", none)]

theorem map_series (p : Url × StatsEntry K) :
    (ProxyStats.series showFloat w now bannedUrls p).map (fun x => (x.name, x.result)) = seriesNames := rfl

theorem nodup_series (p : Url × StatsEntry K) :
    ((ProxyStats.series showFloat w now bannedUrls p).map fun x => seriesOf (x.sample p.1)).Nodup := by
  have hlabels : (fun x : Series => seriesOf (x.sample p.1)) =
      (fun k : String × Option String => (k.1.toList, ("proxy".toList, p.1.toList) ::
        k.2.toList.map fun result => ("result".toList, result.toList))) ∘ fun x => (x.name, x.result) := rfl
  rw [hlabels, ← List.map_map, map_series]
  refine (List.nodup_map_iff_inj_on (by decide)).mpr ?_
  rintro ⟨name, result⟩ - ⟨name', result'⟩ - heq
  obtain ⟨hname, hlabels⟩ := Prod.mk.inj heq
  obtain rfl := String.toList_inj.mp hname
  have hresult := (List.cons.inj hlabels).2
  cases result with
  | none =>
    cases result' with
    | none => rfl
    | some text' => cases hresult
  | some text =>
    cases result' with
    | none => cases hresult
    | some text' =>
      have htext : text.toList = text'.toList := (Prod.mk.inj (List.cons.inj hresult).1).2
      rw [String.toList_inj.mp htext]

theorem nodup_samples : ((s.samples showFloat w now bannedUrls ++
    v.metrics.map fun m => bareSample m.1.name m.2).map seriesOf).Nodup := by
  rw [List.map_append, List.nodup_append]
  refine ⟨?_, ?_, ?_⟩
  · rw [ProxyStats.samples, List.map_flatMap, List.nodup_flatMap]
    refine ⟨fun p _ => ?_, ?_⟩
    · rw [List.map_map]
      exact nodup_series p
    · have hurls : s.data.entries.Pairwise fun p p' => p.1 ≠ p'.1 := List.pairwise_map.mp s.data.nodup
      refine hurls.imp fun {p p'} hne => ?_
      intro k hk hk'
      simp only [List.map_map, List.mem_map, Function.comp] at hk hk'
      obtain ⟨x, -, rfl⟩ := hk
      obtain ⟨x', -, heq⟩ := hk'
      have hproxy := (List.cons.inj (Prod.mk.inj heq).2).1
      exact hne (String.toList_inj.mp (Prod.mk.inj hproxy).2).symm
  · have hnames : (v.metrics.map fun m => bareSample m.1.name m.2).map seriesOf =
        (MetricsView.families.map fun f => f.name.toList).map fun name => (name, []) := by
      rw [← v.map_fst_metrics, List.map_map, List.map_map, List.map_map]
      rfl
    rw [hnames]
    exact (List.nodup_append.mp MetricsView.nodup_names).2.1.map fun _ _ heq => (Prod.mk.inj heq).1
  · intro k hk k' hk' heq
    obtain ⟨x, hx, rfl⟩ := List.mem_map.mp hk
    obtain ⟨x', hx', rfl⟩ := List.mem_map.mp hk'
    obtain ⟨p, -, hx⟩ := List.mem_flatMap.mp hx
    obtain ⟨y, -, rfl⟩ := List.mem_map.mp hx
    obtain ⟨m, -, rfl⟩ := List.mem_map.mp hx'
    cases (Prod.mk.inj heq).2

theorem typed_names : ∀ k ∈ seriesNames, k.1.toList ∈ prometheusHelp.filterMap typed? := by
  rw [types_help]
  decide

theorem name_mem_types {p : Url × StatsEntry K} {x : Series}
    (hx : x ∈ ProxyStats.series showFloat w now bannedUrls p) :
    x.name.toList ∈ prometheusHelp.filterMap typed? := by
  have hmem : (x.name, x.result) ∈
      (ProxyStats.series showFloat w now bannedUrls p).map fun x => (x.name, x.result) :=
    List.mem_map_of_mem hx
  rw [map_series] at hmem
  exact typed_names _ hmem

def proxyLines (showFloat : K → List Char) (w : ℚ → K) (now : ℚ) (s : ProxyStats K) (bannedUrls : List Url) :
    List (List Char) :=
  s.data.entries.flatMap fun p => (ProxyStats.series showFloat w now bannedUrls p).map (·.line p.1)

theorem proxyLine_cases (hshow : ∀ a, number (showFloat a) = true)
    (hplain : ∀ url ∈ s.data.keys, ∀ c ∈ url.toList, ¬ Special c) {l : List Char}
    (hl : l ∈ proxyLines showFloat w now s bannedUrls) :
    '\n' ∉ l ∧ typed? l = none ∧ ∀ x ∈ (line l).getD [], x.name ∈ prometheusHelp.filterMap typed? := by
  obtain ⟨p, hp, hl⟩ := List.mem_flatMap.mp hl
  obtain ⟨x, hx, rfl⟩ := List.mem_map.mp hl
  have hwf := PrometheusRow.wf_series hshow _ _ x hx
  have hsample := hwf.sample p.1
  rw [hwf.line_eq (hplain p.1 (List.mem_map_of_mem hp)), line_render hsample]
  refine ⟨hsample.not_mem_render, typed?_append hsample.name _, fun y hy => ?_⟩
  rw [List.mem_singleton.mp hy]
  exact name_mem_types hx

theorem declared_metricsText (hshow : ∀ a, number (showFloat a) = true)
    (hplain : ∀ url ∈ s.data.keys, ∀ c ∈ url.toList, ¬ Special c) :
    Declared [] ((metricsText showFloat w now s v).splitOn '\n') := by
  have htext : metricsText showFloat w now s v = joinLines (prometheusHelp ++
      (proxyLines showFloat w now s v.blocked ++ ([[]] ++ v.metrics.flatMap fun m => m.1.lines m.2))) := by
    rw [metricsText, ProxyStats.prometheusText_eq, ← List.append_assoc,
      joinLines_append (prometheusHelp ++ _), List.singleton_append, joinLines_cons, List.nil_append,
      proxyLines]
  have hproxies : ∀ l ∈ proxyLines showFloat w now s v.blocked,
      '\n' ∉ l ∧ typed? l = none ∧ ∀ x ∈ (line l).getD [], x.name ∈ prometheusHelp.filterMap typed? :=
    fun l hl => proxyLine_cases hshow hplain hl
  have hfamilies : ∀ l ∈ v.metrics.flatMap (fun m => m.1.lines m.2), '\n' ∉ l := by
    intro l hl
    obtain ⟨m, hm, hl⟩ := List.mem_flatMap.mp hl
    have hwf := MetricsView.wf_of_mem m hm
    have hl : l ∈ [m.1.helpLine, m.1.typeLine] ++ [bareLine m.1.name m.2] := hl
    rcases List.mem_append.mp hl with hl | hl
    · exact (hwf.comments l hl).1
    · exact List.mem_singleton.mp hl ▸ not_mem_bareLine hwf.name m.2
  have hlf : ∀ l ∈ prometheusHelp ++ (proxyLines showFloat w now s v.blocked ++
      ([[]] ++ v.metrics.flatMap fun m => m.1.lines m.2)), '\n' ∉ l := by
    intro l hl
    rcases List.mem_append.mp hl with hl | hl
    · exact (line_of_help l hl).1
    rcases List.mem_append.mp hl with hl | hl
    · exact (hproxies l hl).1
    rcases List.mem_append.mp hl with hl | hl
    · simp [List.mem_singleton.mp hl]
    · exact hfamilies l hl
  have hnone : (proxyLines showFloat w now s v.blocked).filterMap typed? = [] :=
    List.filterMap_eq_nil_iff.mpr fun l hl => (hproxies l hl).2.1
  have hblank : [([] : List Char)].filterMap typed? = [] := rfl
  rw [htext, splitOn_of_lines hlf, declared_append, declared_append, declared_append, declared_append, hnone,
    hblank, List.nil_append, List.append_nil, List.append_nil]
  refine ⟨⟨?_, ?_, ?_, ?_⟩, ?_⟩
  · refine declared_of_comments (fun l hl => (line_of_help l hl).2) ?_
    rw [List.nil_append, types_help]
    decide
  · exact declared_of_samples fun l hl => (hproxies l hl).2
  · exact declared_of_samples (by simp [typed?, blanks, line])
  · refine declared_families MetricsView.wf_of_mem ?_
    have hnames : v.metrics.map (fun m => m.1.name.toList) =
        MetricsView.families.map fun f => f.name.toList := by
      rw [← v.map_fst_metrics, List.map_map]
      rfl
    rw [hnames]
    exact MetricsView.nodup_names
  · exact declared_of_samples (by simp [typed?, blanks, line])

/-- What the server shows and pushes can be read back, exactly when no url has to be escaped: each counter of
each proxy, and each metric of the server.  No series is there twice, and each comes behind its comment. -/
theorem metricsText_readable (hshow : ∀ a, number (showFloat a) = true) (w : ℚ → K) (now : ℚ)
    (s : ProxyStats K) (v : MetricsView) :
    (s.RoundTrips v.blocked (metricsText showFloat w now s v) ↔
      ∀ url ∈ s.data.keys, ∀ c ∈ url.toList, ¬ Special c) ∧
    (s.RoundTrips v.blocked (pushText showFloat w now s v) ↔
      ∀ url ∈ s.data.keys, ∀ c ∈ url.toList, ¬ Special c) ∧
    ((∀ url ∈ s.data.keys, ∀ c ∈ url.toList, ¬ Special c) →
      parse (metricsText showFloat w now s v) =
        some (s.samples showFloat w now v.blocked ++ v.metrics.map fun m => bareSample m.1.name m.2) ∧
      parse (pushText showFloat w now s v) =
        some (s.samples showFloat w now v.blocked ++ v.pushed.map fun m => bareSample m.1 m.2) ∧
      ((s.samples showFloat w now v.blocked ++ v.metrics.map fun m => bareSample m.1.name m.2).map
        seriesOf).Nodup ∧
      Declared [] ((metricsText showFloat w now s v).splitOn '\n')) := by
  have hplain : s.RoundTrips v.blocked (s.prometheusText showFloat w now v.blocked) ↔
      ∀ url ∈ s.data.keys, ∀ c ∈ url.toList, ¬ Special c := by
    refine ⟨fun h url hurl c hc hspecial => ProxyStats.not_roundTrips hshow hurl hc hspecial h, fun h => ?_⟩
    refine ⟨_, ProxyStats.parse_prometheusText hshow h, fun c => ?_⟩
    rw [ProxyStats.read_samples]
  refine ⟨(roundTrips_iff_of_parse parse_metricsText read_metrics).trans hplain,
    (roundTrips_iff_of_parse parse_pushText read_pushed).trans hplain, fun h => ?_⟩
  have hparse : parse (s.prometheusText showFloat w now v.blocked) =
      some (s.samples showFloat w now v.blocked) := ProxyStats.parse_prometheusText hshow h
  refine ⟨?_, ?_, nodup_samples, declared_metricsText hshow h⟩
  · rw [parse_metricsText, hparse, Option.map_some]
  · rw [parse_pushText, hparse, Option.map_some]

end Readings

def freshServer : MetricsView := ⟨60, 0, none, none, some 524288, 3, 1, 1⟩

theorem metricsText_of_oneProxy :
    (oneProxy "http://10.0.0.1:8080").RoundTrips freshServer.blocked
      (metricsText oneHalf (fun _ => 1) 0 (oneProxy "http://10.0.0.1:8080") freshServer) ∧
    ∃ out,
      parse (metricsText oneHalf (fun _ => 1) 0 (oneProxy "http://10.0.0.1:8080") freshServer) = some out ∧
      bareSample "proxy_chunk_size_kb" 512 ∈ out := by
  have hplain : ∀ url ∈ (oneProxy "http://10.0.0.1:8080").data.keys, ∀ c ∈ url.toList, ¬ Special c := by
    intro url hurl
    obtain rfl : url = "http://10.0.0.1:8080" := List.mem_singleton.mp hurl
    exact plain_of_all (by decide)
  obtain ⟨hmetrics, -, hread⟩ :=
    metricsText_readable number_oneHalf (fun _ => 1) 0 (oneProxy "http://10.0.0.1:8080") freshServer
  refine ⟨hmetrics.mpr hplain, _, (hread hplain).1, List.mem_append_right _ ?_⟩
  simp [MetricsView.metrics, freshServer]

end ProxySplit
