import ProxySplit.Lib.Exposition

namespace ProxySplit.Lib.Exposition

variable {s rest value : List Char}

/-- How a label value can be written. -/
inductive Raw : List Char → List Char → Prop
  | nil : Raw [] []
  | plain {c raw value} : c ≠ '"' → c ≠ '\\' → c ≠ '\n' → Raw raw value → Raw (c :: raw) (c :: value)
  | backslash {raw value} : Raw raw value → Raw ('\\' :: '\\' :: raw) ('\\' :: value)
  | quote {raw value} : Raw raw value → Raw ('\\' :: '"' :: raw) ('"' :: value)
  | lineFeed {raw value} : Raw raw value → Raw ('\\' :: 'n' :: raw) ('\n' :: value)

theorem raw_of_quoted (h : quoted s = some (value, rest)) :
    ∃ raw, s = raw ++ '"' :: rest ∧ Raw raw value := by
  fun_induction quoted s generalizing value with
  | case1 => cases h
  | case2 rest' =>
    cases h
    exact ⟨[], rfl, .nil⟩
  | case3 s ih =>
    obtain ⟨⟨v, r⟩, hq, heq⟩ := Option.map_eq_some_iff.mp h
    cases heq
    obtain ⟨raw, rfl, hraw⟩ := ih hq
    exact ⟨_, rfl, hraw.backslash⟩
  | case4 s ih =>
    obtain ⟨⟨v, r⟩, hq, heq⟩ := Option.map_eq_some_iff.mp h
    cases heq
    obtain ⟨raw, rfl, hraw⟩ := ih hq
    exact ⟨_, rfl, hraw.quote⟩
  | case5 s ih =>
    obtain ⟨⟨v, r⟩, hq, heq⟩ := Option.map_eq_some_iff.mp h
    cases heq
    obtain ⟨raw, rfl, hraw⟩ := ih hq
    exact ⟨_, rfl, hraw.lineFeed⟩
  | case6 => cases h
  | case7 c s hquote _ _ _ hplain ih =>
    obtain ⟨⟨v, r⟩, hq, heq⟩ := Option.map_eq_some_iff.mp h
    cases heq
    obtain ⟨raw, rfl, hraw⟩ := ih hq
    obtain ⟨hbackslash, hlf⟩ := not_or.mp hplain
    exact ⟨_, rfl, hraw.plain hquote hbackslash hlf⟩

/-- The characters that have to be escaped. -/
def Special (c : Char) : Prop := c = '\\' ∨ c = '"' ∨ c = '\n'

theorem Raw.length_le (h : Raw s value) : value.length ≤ s.length := by
  induction h with
  | nil => exact le_rfl
  | plain _ _ _ _ ih => exact Nat.succ_le_succ ih
  | backslash _ ih | quote _ ih | lineFeed _ ih =>
    simp only [List.length_cons]
    omega

theorem Raw.length_lt (h : Raw s value) {c : Char} (hc : Special c) (hmem : c ∈ value) :
    value.length < s.length := by
  induction h with
  | nil => cases hmem
  | plain hquote hbackslash hlf _ ih =>
    rcases List.mem_cons.mp hmem with rfl | hmem
    · rcases hc with rfl | rfl | rfl
      · exact absurd rfl hbackslash
      · exact absurd rfl hquote
      · exact absurd rfl hlf
    · exact Nat.succ_lt_succ (ih hmem)
  | backslash h _ | quote h _ | lineFeed h _ =>
    have hle := h.length_le
    simp only [List.length_cons]
    omega

theorem Raw.exists_backslash (h : Raw s value) {front back : List Char} (hs : s = front ++ '"' :: back) :
    ∃ front', front = front' ++ ['\\'] := by
  induction h generalizing front with
  | nil => simp at hs
  | plain hquote _ _ _ ih =>
    cases front with
    | nil => exact absurd (List.cons.inj hs).1 hquote
    | cons d front =>
      obtain ⟨front', rfl⟩ := ih (List.cons.inj hs).2
      exact ⟨d :: front', rfl⟩
  | quote _ ih =>
    rcases front with _ | ⟨d, _ | ⟨e, front⟩⟩
    · cases hs
    · obtain ⟨rfl, -⟩ := List.cons.inj hs
      exact ⟨[], rfl⟩
    · rw [List.cons_append, List.cons_append] at hs
      obtain ⟨front', rfl⟩ := ih (List.cons.inj (List.cons.inj hs).2).2
      exact ⟨d :: e :: front', rfl⟩
  | backslash _ ih | lineFeed _ ih =>
    rcases front with _ | ⟨d, _ | ⟨e, front⟩⟩
    · cases hs
    · cases hs
    · rw [List.cons_append, List.cons_append] at hs
      obtain ⟨front', rfl⟩ := ih (List.cons.inj (List.cons.inj hs).2).2
      exact ⟨d :: e :: front', rfl⟩

theorem Raw.eq (h : Raw s value) (hs : '\\' ∉ s) : value = s := by
  induction h with
  | nil => rfl
  | plain _ _ _ _ ih => rw [ih fun hmem => hs (.tail _ hmem)]
  | backslash | quote | lineFeed => exact absurd (.head _) hs

theorem suffix_of_expect {c : Char} (h : expect c s = some rest) : c :: rest <:+ s := by
  rw [expect] at h
  split at h
  · cases h
  · next d rest' hs =>
    split at h
    · next hd =>
      cases h
      rw [← hd, ← hs]
      exact List.dropWhile_suffix isBlank
    · cases h

theorem suffix_of_takeName {chars : Char → Bool} {name : List Char}
    (h : takeName chars s = some (name, rest)) : rest <:+ s := by
  rw [takeName] at h
  split at h
  · cases h
  · cases h
    exact List.drop_suffix _ _

def Closed (s : List Char) : Prop := (expect ',' s).isSome ∨ (expect '\x7d' s).isSome

def Quoted (s value : List Char) : Prop :=
  ∃ front raw rest, s = front ++ '"' :: (raw ++ '"' :: rest) ∧ Raw raw value ∧ Closed rest

theorem Quoted.of_suffix {t : List Char} (h : Quoted s value) (hs : s <:+ t) : Quoted t value := by
  obtain ⟨front, raw, rest, rfl, hraw, hrest⟩ := h
  obtain ⟨before, rfl⟩ := hs
  exact ⟨before ++ front, raw, rest, (List.append_assoc ..).symm, hraw, hrest⟩

theorem label_inv {l : List Char × List Char} (h : label s = some (l, rest)) :
    ∃ front raw, s = front ++ '"' :: (raw ++ '"' :: rest) ∧ Raw raw l.2 := by
  obtain ⟨⟨name, s₁⟩, hname, h⟩ := Option.bind_eq_some_iff.mp h
  obtain ⟨⟨value, s₂⟩, hvalue, h⟩ := Option.bind_eq_some_iff.mp h
  cases h
  obtain ⟨s₃, hopen, hquoted⟩ := Option.bind_eq_some_iff.mp hvalue
  obtain ⟨s₄, hequals, hopen⟩ := Option.bind_eq_some_iff.mp hopen
  obtain ⟨raw, rfl, hraw⟩ := raw_of_quoted hquoted
  have hs₁ : s₁ <:+ s := (suffix_of_takeName hname).trans (List.dropWhile_suffix isBlank)
  have hs₄ : s₄ <:+ s₁ := (List.suffix_cons _ _).trans (suffix_of_expect hequals)
  obtain ⟨front, hfront⟩ := (suffix_of_expect hopen).trans (hs₄.trans hs₁)
  exact ⟨front, raw, hfront.symm, hraw⟩

theorem quoted_of_labels {fuel : Nat} {ls : List (List Char × List Char)}
    (h : labels fuel s = some (ls, rest)) : ∀ l ∈ ls, Quoted s l.2 := by
  induction fuel generalizing s ls with
  | zero => cases h
  | succ fuel ih =>
    rw [labels] at h
    split at h
    · cases h
      exact List.forall_mem_nil _
    · obtain ⟨⟨l, s₁⟩, hlabel, hls⟩ := Option.bind_eq_some_iff.mp h
      obtain ⟨front, raw, rfl, hraw⟩ := label_inv hlabel
      simp only at hls
      split at hls
      · next hclosed =>
        cases hls
        rintro _ (_ | ⟨_, hmem⟩)
        · exact ⟨front, raw, s₁, rfl, hraw, .inr (Option.isSome_of_eq_some hclosed)⟩
        · cases hmem
      · obtain ⟨⟨more, rest'⟩, hmore, hls⟩ := Option.bind_eq_some_iff.mp hls
        cases hls
        obtain ⟨s₂, hcomma, hmore⟩ := Option.bind_eq_some_iff.mp hmore
        rintro _ (_ | ⟨_, hmem⟩)
        · exact ⟨front, raw, s₁, rfl, hraw, .inl (Option.isSome_of_eq_some hcomma)⟩
        · have hs₂ : s₂ <:+ s₁ := (List.suffix_cons _ _).trans (suffix_of_expect hcomma)
          refine (ih hmore _ hmem).of_suffix (hs₂.trans ⟨front ++ '"' :: (raw ++ ['"']), ?_⟩)
          simp

theorem quoted_of_sample {x : Sample} (h : sample s = some x) : ∀ l ∈ x.labels, Quoted s l.2 := by
  obtain ⟨⟨name, s₁⟩, hname, h⟩ := Option.bind_eq_some_iff.mp h
  obtain ⟨⟨ls, s₂⟩, hlabels, h⟩ := Option.bind_eq_some_iff.mp h
  have hls : ∀ l ∈ ls, Quoted s l.2 := by
    rw [labelSet] at hlabels
    split at hlabels
    · next s₃ hopen =>
      have hs₃ : s₃ <:+ s₁ := (List.suffix_cons _ _).trans (suffix_of_expect hopen)
      exact fun l hl => (quoted_of_labels hlabels l hl).of_suffix (hs₃.trans (suffix_of_takeName hname))
    · cases hlabels
      exact List.forall_mem_nil _
  have hx : x.labels = ls := by
    simp only at h
    split at h
    · split at h
      · cases h
        rfl
      · cases h
    · split at h
      · cases h
        rfl
      · cases h
    · cases h
  rwa [hx]

theorem quoted_of_line {xs : List Sample} (h : line s = some xs) :
    ∀ x ∈ xs, ∀ l ∈ x.labels, Quoted s l.2 := by
  rw [line] at h
  split at h
  · cases h
    exact List.forall_mem_nil _
  · cases h
    exact List.forall_mem_nil _
  · obtain ⟨x, hx, rfl⟩ := Option.map_eq_some_iff.mp h
    rintro _ (_ | ⟨_, hmem⟩)
    · exact fun l hl => (quoted_of_sample hx l hl).of_suffix (List.dropWhile_suffix isBlank)
    · cases hmem

theorem exists_of_mapM {α β : Type} {f : α → Option β} {as : List α} {bs : List β} (h : as.mapM f = some bs)
    {b : β} (hb : b ∈ bs) : ∃ a ∈ as, f a = some b := by
  induction as generalizing bs with
  | nil =>
    cases h
    cases hb
  | cons a as ih =>
    rw [List.mapM_cons] at h
    obtain ⟨b', hb', h⟩ := Option.bind_eq_some_iff.mp h
    obtain ⟨bs', hbs', h⟩ := Option.bind_eq_some_iff.mp h
    cases h
    rcases List.mem_cons.mp hb with rfl | hb
    · exact ⟨a, .head _, hb'⟩
    · obtain ⟨a', ha', heq⟩ := ih hbs' hb
      exact ⟨a', .tail _ ha', heq⟩

theorem exists_line_of_parse {xs : List Sample} (h : parse s = some xs) {x : Sample} (hx : x ∈ xs) :
    ∃ l ∈ s.splitOn '\n', ∃ ys, line l = some ys ∧ x ∈ ys := by
  rw [parse] at h
  split at h
  · obtain ⟨out, hout, rfl⟩ := Option.map_eq_some_iff.mp h
    obtain ⟨ys, hys, hx⟩ := List.mem_flatten.mp hx
    obtain ⟨l, hl, heq⟩ := exists_of_mapM hout hys
    exact ⟨l, hl, ys, heq, hx⟩
  · cases h

theorem exists_of_mem_splitOn {p x q l : List Char} (hp : '\n' ∉ p) (hq : '\n' ∉ q)
    (h : l ∈ (p ++ x ++ q).splitOn '\n') :
    ∃ p' y q', l = p' ++ y ++ q' ∧ (p' = p ∨ p' = []) ∧ (q' = q ∨ q' = []) ∧ y.length ≤ x.length := by
  induction x generalizing p with
  | nil =>
    rw [List.append_nil, List.splitOn_eq_singleton (by simp [hp, hq]), List.mem_singleton] at h
    exact ⟨p, [], q, by simpa using h, .inl rfl, .inl rfl, le_rfl⟩
  | cons c x ih =>
    by_cases hc : c = '\n'
    · subst hc
      rw [List.append_assoc, List.cons_append, List.splitOn_append_cons_self_of_not_mem hp,
        List.mem_cons] at h
      rcases h with rfl | h
      · exact ⟨l, [], [], by simp, .inl rfl, .inr rfl, Nat.zero_le _⟩
      · obtain ⟨p', y, q', rfl, hp', hq', hlen⟩ := ih (p := []) (by simp) (by simpa using h)
        exact ⟨p', y, q', rfl, .inr (or_self_iff.mp hp'), hq', Nat.le_succ_of_le hlen⟩
    · have hpc : '\n' ∉ p ++ [c] := by simp [hp, Ne.symm hc]
      obtain ⟨p', y, q', rfl, hp', hq', hlen⟩ := ih hpc (by simpa using h)
      rcases hp' with rfl | rfl
      · exact ⟨p, c :: y, q', by simp, .inl rfl, hq', Nat.succ_le_succ hlen⟩
      · exact ⟨[], y, q', rfl, .inr rfl, hq', Nat.le_succ_of_le hlen⟩

theorem Quoted.length_lt_or {p x q : List Char} (h : Quoted (p ++ x ++ q) value)
    (hp : ∀ front back, p = front ++ '"' :: back → back = []) {c : Char} (hc : Special c) (hmem : c ∈ value) :
    value.length < x.length ∨ ∃ front raw back rest, back ≠ [] ∧ front ++ '"' :: raw = p ++ x ++ back ∧
      q = back ++ '"' :: rest ∧ Raw raw value ∧ Closed rest := by
  obtain ⟨front, raw, rest, heq, hraw, hrest⟩ := h
  have hlong := hraw.length_lt hc hmem
  have hinside : ∀ back, p ++ x = front ++ '"' :: (raw ++ back) → value.length < x.length := by
    intro back heq
    rcases List.append_eq_append_iff.mp heq with ⟨mid, -, rfl⟩ | ⟨mid, rfl, hmid⟩
    · simp only [List.length_append, List.length_cons]
      omega
    · cases mid with
      | nil =>
        rw [← List.nil_append x, ← hmid]
        simp only [List.length_append, List.length_cons]
        omega
      | cons d mid =>
        obtain ⟨rfl, hx⟩ := List.cons.inj hmid
        obtain rfl := hp front mid rfl
        have hlen : raw.length + back.length = x.length := by
          rw [← List.length_append, hx]
          rfl
        omega
  have hassoc : p ++ x ++ q = (front ++ '"' :: raw) ++ '"' :: rest := by simpa using heq
  rcases List.append_eq_append_iff.mp hassoc with ⟨back, hback, hq⟩ | ⟨back, hback, -⟩
  · by_cases hnil : back = []
    · subst hnil
      rw [List.append_nil] at hback
      exact .inl (hinside [] (by simpa using hback.symm))
    · exact .inr ⟨front, raw, back, rest, hnil, hback, hq, hraw, hrest⟩
  · exact .inl (hinside back (by simpa using hback))

theorem plain_of_all (h : value.all (fun c => !(c = '\\' || c = '"' || c = '\n')) = true) :
    ∀ c ∈ value, ¬ Special c := by
  intro c hc
  simpa [Special, and_assoc] using List.all_eq_true.mp h c hc

theorem escape_eq_self (h : ∀ c ∈ value, ¬ Special c) : escape value = value := by
  induction value with
  | nil => rfl
  | cons c value ih =>
    obtain ⟨hc, hvalue⟩ := List.forall_mem_cons.mp h
    obtain ⟨hbackslash, hc⟩ := not_or.mp hc
    obtain ⟨hquote, hlf⟩ := not_or.mp hc
    rw [escape, List.flatMap_cons, escapeChar, if_neg hbackslash, if_neg hquote, if_neg hlf,
      List.singleton_append]
    exact congrArg (c :: ·) (ih hvalue)

end ProxySplit.Lib.Exposition
