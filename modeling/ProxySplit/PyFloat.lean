import ProxySplit.PyText
import ProxySplit.Lib.Rounding
import Mathlib.Data.List.TakeWhile

namespace ProxySplit

open Lib

inductive PyFloat
  | nan
  | negInf
  | fin (q : ℚ)
  | inf
  deriving DecidableEq

namespace PyFloat

def neg : PyFloat → PyFloat
  | .nan => .nan
  | .negInf => .inf
  | .fin q => .fin (-q)
  | .inf => .negInf

/-- The largest finite value and half of the distance to the next power of two. -/
def overflow : ℚ := 2 ^ 1024 - 2 ^ 970

/-- What a `float` can be, up to the overflow. -/
def double : BinaryFormat := ⟨53, -1074⟩

/-- The `float` nearest to a number. -/
def ofRat (q : ℚ) : PyFloat :=
  if overflow ≤ q then .inf else if q ≤ -overflow then .negInf else .fin (double.round q)

theorem overflow_pos : 0 < overflow := by decide +kernel

theorem ofRat_eq_fin_iff {p q : ℚ} : ofRat q = .fin p ↔ |q| < overflow ∧ double.round q = p := by
  rw [ofRat, abs_lt, and_comm , ← not_le, ← not_le]
  split_ifs with hlarge hsmall
  · simp [hlarge]
  · simp [hsmall]
  · simp [hlarge, hsmall]

/-- `float` takes the number as it is: it has no more digits than a `float` and is not too large. -/
def Exact (n : ℕ) : Prop := n < overflow ∧ ∃ m k, m < 2 ^ 53 ∧ n = m * 2 ^ k

theorem ofRat_natCast_iff {n : ℕ} : ofRat n = .fin n ↔ Exact n := by
  rw [ofRat_eq_fin_iff, abs_of_nonneg (Nat.cast_nonneg n), BinaryFormat.round_eq_self_iff,
    BinaryFormat.represents_natCast_iff (by decide)]
  rfl

instance (n : ℕ) : Decidable (Exact n) := decidable_of_iff _ ofRat_natCast_iff

def addTo (t : ℚ) : PyFloat → PyFloat
  | .fin q => .fin (t + q)
  | x => x

def le (x : PyFloat) (t : ℚ) : Bool :=
  match x with
  | .nan | .inf => false
  | .negInf => true
  | .fin q => q ≤ t

def lt (x : PyFloat) (t : ℚ) : Bool :=
  match x with
  | .nan | .inf => false
  | .negInf => true
  | .fin q => q < t

def noLater : PyFloat → PyFloat → Bool
  | _, .nan | _, .inf | .negInf, _ => true
  | .fin p, .fin q => p ≤ q
  | _, _ => false

theorem lt_of_noLater {x y : PyFloat} {t : ℚ} (h : x.noLater y = true) (hy : y.lt t = true) :
    x.lt t = true := by
  cases y with
  | nan | inf => cases hy
  | negInf =>
    cases x with
    | negInf => rfl
    | _ => cases h
  | fin q =>
    cases x with
    | negInf => rfl
    | fin p => exact decide_eq_true ((of_decide_eq_true h).trans_lt (of_decide_eq_true hy))
    | _ => cases h

theorem addTo_inj {x y : PyFloat} {t : ℚ} : x.addTo t = y.addTo t ↔ x = y := by
  cases x with
  | fin p =>
    cases y with
    | fin q => simp [addTo]
    | nan | negInf | inf => simp [addTo]
  | nan | negInf | inf =>
    cases y with
    | fin q => simp [addTo]
    | nan | negInf | inf => simp [addTo]

theorem lt_mono {x : PyFloat} {t u : ℚ} (h : t ≤ u) (hx : x.lt t = true) : x.lt u = true := by
  cases x with
  | nan | inf => cases hx
  | negInf => rfl
  | fin q => exact decide_eq_true ((of_decide_eq_true hx).trans_le h)

theorem not_lt_addTo {x : PyFloat} {t : ℚ} (h : ¬ x.le 0 = true) : (x.addTo t).lt t = false := by
  cases x with
  | nan | inf => rfl
  | negInf => exact absurd rfl h
  | fin q =>
    have hpos : 0 < q := not_le.mp fun hle => h (decide_eq_true hle)
    exact decide_eq_false (by linarith)

theorem eventually_lt {x y : PyFloat} (h : x.noLater y = false) : ∃ t, ∀ u, t ≤ u → y.lt u = true := by
  cases y with
  | nan | inf => simp [noLater] at h
  | negInf => exact ⟨0, fun _ _ => rfl⟩
  | fin q => exact ⟨q + 1, fun u hu => decide_eq_true (by linarith)⟩

theorem exists_between {x y z : PyFloat} (hy : x.noLater y = false) (hz : x.noLater z = false) :
    ∃ t, y.lt t = true ∧ z.lt t = true ∧ x.lt t = false := by
  have hfin : ∀ {p : ℚ} {y : PyFloat}, (fin p).noLater y = false → y.lt p = true := by
    intro p y h
    cases y with
    | nan | inf => cases h
    | negInf => rfl
    | fin q => exact decide_eq_true (not_le.mp (of_decide_eq_false h))
  cases x with
  | negInf =>
    cases y with
    | _ => cases hy
  | fin p => exact ⟨p, hfin hy, hfin hz, decide_eq_false (lt_irrefl p)⟩
  | nan | inf =>
    obtain ⟨t, ht⟩ := eventually_lt hy
    obtain ⟨u, hu⟩ := eventually_lt hz
    exact ⟨max t u, ht _ (le_max_left _ _), hu _ (le_max_right _ _), rfl⟩

def digitPart (s : List Char) : Option (List Char) := if s = [] then some [] else PyText.digitsOf s

def exponentOf (s : List Char) : Option Int :=
  match s with
  | '+' :: rest => (PyText.digitsOf rest).map fun ds => (PyText.digitsValue ds : Int)
  | '-' :: rest => (PyText.digitsOf rest).map fun ds => -(PyText.digitsValue ds : Int)
  | rest => (PyText.digitsOf rest).map fun ds => (PyText.digitsValue ds : Int)

def number (s : List Char) : Option ℚ := do
  let mantissa := s.takeWhile fun c => c ≠ 'e' ∧ c ≠ 'E'
  let exponent ← match s.drop mantissa.length with
    | [] => some 0
    | _ :: rest => exponentOf rest
  let whole ← digitPart (mantissa.takeWhile (· ≠ '.'))
  let fraction ← digitPart ((mantissa.dropWhile (· ≠ '.')).drop 1)
  if whole ++ fraction = [] then none
  else some ((PyText.digitsValue (whole ++ fraction) : ℚ) * 10 ^ (exponent - fraction.length))

def unsigned (s : List Char) : Option PyFloat :=
  let word := String.ofList (s.map Char.toLower)
  if word = "inf" ∨ word = "infinity" then some .inf
  else if word = "nan" then some .nan
  else (number s).map ofRat

/-- `float(s)`.  `none` is `ValueError`. -/
def parse (s : List Char) : Option PyFloat :=
  match PyText.stripOf PyText.isNumberSpace s with
  | '+' :: rest => unsigned rest
  | '-' :: rest => (unsigned rest).map neg
  | rest => unsigned rest

theorem ne_of_isDigit {ds : List Char} (h : ∀ c ∈ ds, PyText.isDigit c = true) {x : Char}
    (hx : PyText.isDigit x = false) : ∀ c ∈ ds, c ≠ x := by
  rintro c hc rfl
  exact absurd (hx.symm.trans (h c hc)) Bool.false_ne_true

theorem number_of_isDigit {ds : List Char} (hne : ds ≠ []) (h : ∀ c ∈ ds, PyText.isDigit c = true) :
    number ds = some (PyText.digitsValue ds : ℚ) := by
  have he : ∀ c ∈ ds, c ≠ 'e' := ne_of_isDigit h (by decide)
  have hE : ∀ c ∈ ds, c ≠ 'E' := ne_of_isDigit h (by decide)
  have hdot : ∀ c ∈ ds, c ≠ '.' := ne_of_isDigit h (by decide)
  have hmantissa : ds.takeWhile (fun c => decide (c ≠ 'e' ∧ c ≠ 'E')) = ds :=
    List.takeWhile_eq_self_iff.mpr fun c hc => decide_eq_true ⟨he c hc, hE c hc⟩
  have hwhole : ds.takeWhile (fun c => decide (c ≠ '.')) = ds :=
    List.takeWhile_eq_self_iff.mpr fun c hc => decide_eq_true (hdot c hc)
  have hrest : ds.dropWhile (fun c => decide (c ≠ '.')) = [] :=
    List.dropWhile_eq_nil_iff.mpr fun c hc => decide_eq_true (hdot c hc)
  rw [number, hmantissa, hwhole, hrest, List.drop_length]
  simp [digitPart, hne, PyText.digitsOf_eq_self hne h]

theorem parse_of_isDigit {ds : List Char} (hne : ds ≠ []) (h : ∀ c ∈ ds, PyText.isDigit c = true) :
    parse ds = some (ofRat (PyText.digitsValue ds)) := by
  have hlower : ds.map Char.toLower = ds := by
    conv_rhs => rw [← List.map_id ds]
    exact List.map_congr_left fun c hc => PyText.toLower_of_isDigit (h c hc)
  have hword : ∀ word : String, (∃ x ∈ word.toList, PyText.isDigit x = false) →
      String.ofList ds ≠ word := by
    rintro word ⟨x, hx, hnot⟩ rfl
    rw [String.toList_ofList] at hx
    exact ne_of_isDigit h hnot x hx rfl
  have hunsigned : unsigned ds = some (ofRat (PyText.digitsValue ds)) := by
    rw [unsigned, hlower, if_neg, if_neg, number_of_isDigit hne h]
    · rfl
    · exact hword "nan" ⟨'n', by decide, by decide⟩
    · rintro (hinf | hinf)
      · exact hword "inf" ⟨'i', by decide, by decide⟩ hinf
      · exact hword "infinity" ⟨'i', by decide, by decide⟩ hinf
  unfold parse
  rw [PyText.stripOf_of_isDigit h]
  split
  · exact absurd rfl (ne_of_isDigit h PyText.isDigit_plus _ (.head _))
  · exact absurd rfl (ne_of_isDigit h PyText.isDigit_dash _ (.head _))
  · exact hunsigned

example : parse " -1_0.25e1".toList = some (.fin (-205 / 2)) := by decide +kernel

example : parse "9007199254740993".toList = some (.fin 9007199254740992) := by decide +kernel

example : parse "1e-400".toList = some (.fin 0) := by decide +kernel

end PyFloat

end ProxySplit
