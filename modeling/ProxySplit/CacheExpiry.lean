import ProxySplit.CacheTier

namespace ProxySplit

open Lib

def firstAge (headers : Headers) : Option (List Char) :=
  let parts := ((cacheControl headers).splitOn ',').map PyText.strip
  (parts.find? fun part => "max-age=".toList.isPrefixOf part).map (·.drop 8)

def AsciiNumber (text : List Char) : Prop := text ≠ [] ∧ ∀ c ∈ text, c.isDigit = true

instance (text : List Char) : Decidable (AsciiNumber text) :=
  @instDecidableAnd _ _ inferInstance (List.decidableBAll (fun c => c.isDigit = true) text)

/-- The time to live that the header asks for: a `max-age` of digits or none. -/
def askedTtl (headers : Headers) (defaultTtl : PyFloat) : PyFloat :=
  match firstAge headers with
  | some text => if AsciiNumber text then .fin (PyText.digitsValue text) else defaultTtl
  | none => defaultTtl

/-- What is put lives as long as it asks for and not longer. -/
structure ExpiresAsAsked {γ : Type} (T : Tier γ) (c : γ) (now : Clock) (url : Url) (r : Cached) : Prop where
  ttl : ttlOf r.headers (T.defaultTtl c) = askedTtl r.headers (T.defaultTtl c)
  finite : ∃ q, ttlOf r.headers (T.defaultTtl c) = .fin q
  stored : T.accepts c r = true ↔ ¬ (askedTtl r.headers (T.defaultTtl c)).le 0 = true
  gone : T.accepts c r = true → ∃ t, ∀ later : Clock, t < later.monotonic →
    (T.get (T.put c now url r) later url).2 = none

/-- `float` reads the value as the header means it. -/
def ReadAsMeant (headers : Headers) (defaultTtl : PyFloat) : Prop :=
  match firstAge headers with
  | some text =>
    if AsciiNumber text then PyFloat.Exact (PyText.digitsValue text)
    else (∃ q, defaultTtl = .fin q) ∧ (PyFloat.parse text = none ∨ PyFloat.parse text = some defaultTtl)
  | none => ∃ q, defaultTtl = .fin q

section Values

variable {headers : Headers} {d : PyFloat} {text : List Char}

theorem ttlOf_firstAge : ttlOf headers d = ((firstAge headers).bind PyFloat.parse).getD d := by
  rw [ttlOf, firstAge]
  cases (((cacheControl headers).splitOn ',').map PyText.strip).find? fun part =>
      "max-age=".toList.isPrefixOf part with
  | none => rfl
  | some part => rfl

theorem parse_of_asciiNumber (h : AsciiNumber text) :
    PyFloat.parse text = some (.ofRat (PyText.digitsValue text)) :=
  PyFloat.parse_of_isDigit h.1 fun c hc => PyText.isDigit_of_ascii (h.2 c hc)

theorem readAsMeant_iff : ReadAsMeant headers d ↔
    ttlOf headers d = askedTtl headers d ∧ ∃ q, ttlOf headers d = .fin q := by
  rw [ttlOf_firstAge, ReadAsMeant, askedTtl]
  cases firstAge headers with
  | none => simp
  | some text =>
    simp only [Option.bind_some]
    split
    · next hnumber =>
      rw [parse_of_asciiNumber hnumber, Option.getD_some, ← PyFloat.ofRat_natCast_iff]
      exact ⟨fun hfin => ⟨hfin, _, hfin⟩, And.left⟩
    · cases PyFloat.parse text with
      | none => simp
      | some x =>
        simp only [reduceCtorEq, Option.some.injEq, false_or, Option.getD_some]
        constructor
        · rintro ⟨hfin, rfl⟩
          exact ⟨rfl, hfin⟩
        · rintro ⟨rfl, hfin⟩
          exact ⟨hfin, rfl⟩

end Values

section Caches

variable {γ : Type} {T : Tier γ} {c : γ} {now : Clock} {url : Url} {r : Cached}

theorem gone_of_finite {q : ℚ} (hacc : T.accepts c r = true) (hq : ttlOf r.headers (T.defaultTtl c) = .fin q)
    {later : Clock} (hlater : now.monotonic + q < later.monotonic) :
    (T.get (T.put c now url r) later url).2 = none := by
  cases hget : (T.get (T.put c now url r) later url).2 with
  | none => rfl
  | some r' =>
    obtain ⟨w, hheld, hlive, -⟩ := T.hit_iff.mp hget
    rcases T.held_put hheld with ⟨-, -, rfl⟩ | ⟨hne, -⟩
    · rw [Held.live, Held.of, hq] at hlive
      simp [PyFloat.addTo, PyFloat.lt, hlater] at hlive
    · exact absurd rfl (hne hacc)

theorem expiresAsAsked_iff (hacc : ∀ q, ttlOf r.headers (T.defaultTtl c) = .fin q →
    (T.accepts c r = true ↔ ¬ (PyFloat.fin q).le 0 = true)) :
    ExpiresAsAsked T c now url r ↔ ReadAsMeant r.headers (T.defaultTtl c) := by
  rw [readAsMeant_iff]
  constructor
  · exact fun h => ⟨h.ttl, h.finite⟩
  · rintro ⟨httl, q, hq⟩
    refine ⟨httl, ⟨q, hq⟩, ?_, fun haccepts => ?_⟩
    · rw [hacc q hq, ← httl, hq]
    · exact ⟨now.monotonic + q, fun later hlater => gone_of_finite haccepts hq hlater⟩

/-- A response that may be stored expires as it asks for exactly when `float` reads its `max-age` as the
header means it. -/
theorem expires_iff (l1 : ResponseCache) (l2 : DiskCache) (hallowed : forbidsStore r.headers = false) :
    (l1.enabled = true → r.body.length ≤ l1.maxBody →
      (ExpiresAsAsked ResponseCache.tier l1 now url r ↔ ReadAsMeant r.headers l1.defaultTtl)) ∧
    (r.body.length ≤ l2.maxBody →
      (ExpiresAsAsked DiskCache.tier l2 now url r ↔ ReadAsMeant r.headers l2.defaultTtl)) := by
  constructor
  · intro hen hsize
    refine expiresAsAsked_iff fun q hq => ?_
    change l1.accepts r = true ↔ _
    change ttlOf r.headers l1.defaultTtl = _ at hq
    simp [ResponseCache.accepts, hen, hsize, hallowed, hq]
  · intro hsize
    refine expiresAsAsked_iff fun q hq => ?_
    change l2.accepts r = true ↔ _
    change ttlOf r.headers l2.defaultTtl = _ at hq
    simp [DiskCache.accepts, hsize, hallowed, hq]

theorem expires_at_sixty : ExpiresAsAsked ResponseCache.tier ⟨1, .fin 300, 1024, .empty⟩ ⟨0, 0⟩ "http://h/a"
    ⟨200, [], [("Cache-Control", "public, max-age=60")]⟩ := by
  have hallowed : forbidsStore
      (Cached.headers ⟨200, [], [("Cache-Control", "public, max-age=60")]⟩) = false := by
    decide +kernel
  have hage : firstAge [("Cache-Control", "public, max-age=60")] = some ['6', '0'] := by decide +kernel
  have hnumber : AsciiNumber ['6', '0'] := by decide
  have hmeant : ReadAsMeant [("Cache-Control", "public, max-age=60")] (.fin 300) := by
    simp only [ReadAsMeant, hage, if_pos hnumber]
    decide +kernel
  exact ((expires_iff _ ⟨1024, .fin 300, 1024, .empty⟩ hallowed).1 (by decide) (by decide)).mpr hmeant

/-- What asks for an infinite time is never gone. -/
theorem not_expires_inf : ¬ ExpiresAsAsked ResponseCache.tier ⟨1, .fin 300, 1024, .empty⟩ ⟨0, 0⟩ "http://h/a"
    ⟨200, [], [("Cache-Control", "max-age=inf")]⟩ := by
  intro h
  obtain ⟨q, hq⟩ := h.finite
  have hinf : ttlOf [("Cache-Control", "max-age=inf")] (.fin 300) = .inf := by decide +kernel
  cases hinf.symm.trans hq

end Caches

end ProxySplit
