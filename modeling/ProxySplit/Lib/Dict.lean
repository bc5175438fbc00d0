import Mathlib.Data.List.Nodup
import Mathlib.Data.List.Basic

universe u v

namespace ProxySplit.Lib

/-- A finite map that remembers the order in which its keys came in.  Assigning to a
present key keeps the key in its place. -/
structure Dict (κ : Type u) (ν : Type v) where
  entries : List (κ × ν)
  nodup : (entries.map Prod.fst).Nodup
  deriving DecidableEq

namespace Dict

variable {κ : Type u} {ν : Type v} [DecidableEq κ]

def empty : Dict κ ν := ⟨[], List.nodup_nil⟩

instance : Inhabited (Dict κ ν) := ⟨empty⟩

def keys (d : Dict κ ν) : List κ := d.entries.map Prod.fst

def find (k : κ) : List (κ × ν) → Option ν
  | [] => none
  | (k', v) :: r => if k' = k then some v else find k r

def get? (d : Dict κ ν) (k : κ) : Option ν := find k d.entries

def assign (k : κ) (v : ν) : List (κ × ν) → List (κ × ν)
  | [] => [(k, v)]
  | (k', v') :: r => if k' = k then (k, v) :: r else (k', v') :: assign k v r

theorem mem_keys_assign (k : κ) (v : ν) (l : List (κ × ν)) (x : κ) :
    x ∈ (assign k v l).map Prod.fst ↔ x = k ∨ x ∈ l.map Prod.fst := by
  induction l with
  | nil => simp [assign]
  | cons p r ih =>
    obtain ⟨k', v'⟩ := p
    by_cases h : k' = k
    · subst h; simp [assign]
    · rw [assign, if_neg h, List.map_cons, List.mem_cons, ih, List.map_cons, List.mem_cons]
      tauto

theorem nodup_assign (k : κ) (v : ν) {l : List (κ × ν)} (h : (l.map Prod.fst).Nodup) :
    ((assign k v l).map Prod.fst).Nodup := by
  induction l with
  | nil => simp [assign]
  | cons p r ih =>
    obtain ⟨k', v'⟩ := p
    obtain ⟨hout, hr⟩ := List.nodup_cons.mp h
    by_cases hk : k' = k
    · subst hk; simpa [assign] using h
    · rw [assign, if_neg hk, List.map_cons]
      refine List.nodup_cons.mpr ⟨?_, ih hr⟩
      rw [mem_keys_assign]
      exact fun hm => hm.elim hk hout

/-- `d[k] = v`. -/
def set (d : Dict κ ν) (k : κ) (v : ν) : Dict κ ν :=
  ⟨assign k v d.entries, nodup_assign k v d.nodup⟩

/-- `d.pop(k, None)`, without the value. -/
def erase (d : Dict κ ν) (k : κ) : Dict κ ν :=
  ⟨d.entries.filter (fun p => p.1 ≠ k),
    (List.filter_sublist.map Prod.fst).nodup d.nodup⟩

/-- `d.update(new)`. -/
def update (d new : Dict κ ν) : Dict κ ν := new.entries.foldl (fun d p => d.set p.1 p.2) d

/-- `{k: v for k, v in l}`, where the last value of a key counts. -/
def ofList (l : List (κ × ν)) : Dict κ ν := l.foldl (fun d p => d.set p.1 p.2) empty

/-- The entries whose keys are wanted, `{k: v for k, v in d.items() if k in keys}`. -/
def restrict (d : Dict κ ν) (keys : List κ) : Dict κ ν :=
  ⟨d.entries.filter fun p => p.1 ∈ keys, (List.filter_sublist.map Prod.fst).nodup d.nodup⟩

def dropFirst (d : Dict κ ν) (n : Nat) : Dict κ ν :=
  ⟨d.entries.drop n, ((List.drop_sublist n _).map Prod.fst).nodup d.nodup⟩

/-- `{k: f(v) for k, v in d.items()}`. -/
def mapValues {ν' : Type v} (f : ν → ν') (d : Dict κ ν) : Dict κ ν' where
  entries := d.entries.map fun p => (p.1, f p.2)
  nodup := by
    rw [List.map_map]
    exact d.nodup

@[simp] theorem get?_empty (k : κ) : (empty : Dict κ ν).get? k = none := rfl

theorem find_assign (k k' : κ) (v : ν) (l : List (κ × ν)) :
    find k' (assign k v l) = if k' = k then some v else find k' l := by
  induction l with
  | nil => simp [assign, find, eq_comm]
  | cons p r ih =>
    obtain ⟨a, b⟩ := p
    by_cases hk : k' = k
    · subst hk
      by_cases ha : a = k' <;> simp_all [assign, find]
    · by_cases ha : a = k
      · subst ha; simp [assign, find, hk, Ne.symm hk]
      · simp [assign, find, ha, ih, hk]

@[simp] theorem get?_set (d : Dict κ ν) (k k' : κ) (v : ν) :
    (d.set k v).get? k' = if k' = k then some v else d.get? k' := find_assign k k' v d.entries

theorem find_filter_ne (k k' : κ) (l : List (κ × ν)) :
    find k' (l.filter (fun p => p.1 ≠ k)) = if k' = k then none else find k' l := by
  induction l with
  | nil => simp [find]
  | cons p r ih =>
    obtain ⟨a, b⟩ := p
    by_cases ha : a = k
    · subst ha
      rw [List.filter_cons_of_neg (by simp), ih]
      by_cases hk : k' = a
      · simp [hk]
      · simp [find, hk, Ne.symm hk]
    · rw [List.filter_cons_of_pos (by simpa using ha), find, ih, find]
      by_cases hk : k' = k
      · subst hk; simp [ha]
      · simp [hk]

@[simp] theorem get?_erase (d : Dict κ ν) (k k' : κ) :
    (d.erase k).get? k' = if k' = k then none else d.get? k' := find_filter_ne k k' d.entries

theorem isSome_get?_set (d : Dict κ ν) (k k' : κ) (v : ν) :
    ((d.set k v).get? k').isSome ↔ k' = k ∨ (d.get? k').isSome := by
  rw [get?_set]
  split
  · next h => simp [h]
  · next h => simp [h]

theorem isSome_get?_erase (d : Dict κ ν) (k k' : κ) :
    ((d.erase k).get? k').isSome ↔ k' ≠ k ∧ (d.get? k').isSome := by
  rw [get?_erase]
  split
  · next h => simp [h]
  · next h => simp [h]

omit [DecidableEq κ] in
@[simp] theorem keys_mapValues {ν' : Type v} (f : ν → ν') (d : Dict κ ν) :
    (d.mapValues f).keys = d.keys := List.map_map

@[simp] theorem get?_mapValues {ν' : Type v} (f : ν → ν') (d : Dict κ ν) (k : κ) :
    (d.mapValues f).get? k = (d.get? k).map f := by
  simp only [get?, mapValues]
  induction d.entries with
  | nil => rfl
  | cons p r ih =>
    rw [List.map_cons, find, find]
    split
    · rfl
    · exact ih

omit [DecidableEq κ] in
theorem ext_entries {d d' : Dict κ ν} (h : d.entries = d'.entries) : d = d' := by
  cases d
  cases d'
  cases h
  rfl

theorem set_of_get? {d : Dict κ ν} {k : κ} {v : ν} (h : d.get? k = some v) : d.set k v = d := by
  refine ext_entries ?_
  rw [get?] at h
  change assign k v d.entries = d.entries
  generalize d.entries = l at h
  induction l with
  | nil => cases h
  | cons p r ih =>
    rw [find] at h
    rw [assign]
    split
    · next hk =>
      rw [if_pos hk, Option.some.injEq] at h
      rw [← hk, ← h]
    · next hk =>
      rw [if_neg hk] at h
      rw [ih h]

theorem mapValues_set {ν' : Type v} (f : ν → ν') (d : Dict κ ν) (k : κ) (v : ν) :
    (d.set k v).mapValues f = (d.mapValues f).set k (f v) := by
  refine ext_entries ?_
  change (assign k v d.entries).map _ = assign k (f v) (d.entries.map _)
  induction d.entries with
  | nil => rfl
  | cons p r ih =>
    rw [List.map_cons, assign, assign]
    split
    · rfl
    · rw [List.map_cons, ih]

theorem mem_of_find {k : κ} {v : ν} {l : List (κ × ν)} (h : find k l = some v) : (k, v) ∈ l := by
  induction l with
  | nil => cases h
  | cons p r ih =>
    obtain ⟨a, b⟩ := p
    by_cases ha : a = k
    · subst ha
      simp only [find, if_true, Option.some.injEq] at h
      simp [h]
    · rw [find, if_neg ha] at h
      exact List.mem_cons_of_mem _ (ih h)

theorem find_of_mem {k : κ} {v : ν} {l : List (κ × ν)} (hn : (l.map Prod.fst).Nodup)
    (h : (k, v) ∈ l) : find k l = some v := by
  induction l with
  | nil => cases h
  | cons p r ih =>
    obtain ⟨a, b⟩ := p
    obtain ⟨hout, hr⟩ := List.nodup_cons.mp hn
    rcases List.mem_cons.mp h with heq | hmem
    · cases heq; simp [find]
    · have hne : a ≠ k := fun he => hout (by rw [he]; exact List.mem_map.mpr ⟨_, hmem, rfl⟩)
      rw [find, if_neg hne]
      exact ih hr hmem

theorem assign_of_not_mem {k : κ} {v : ν} {l : List (κ × ν)} (h : k ∉ l.map Prod.fst) :
    assign k v l = l ++ [(k, v)] := by
  induction l with
  | nil => rfl
  | cons p r ih =>
    obtain ⟨a, b⟩ := p
    rw [List.map_cons, List.mem_cons, not_or] at h
    rw [assign, if_neg (Ne.symm h.1), ih h.2, List.cons_append]

theorem entries_erase_set (d : Dict κ ν) (k : κ) (v : ν) :
    ((d.erase k).set k v).entries = (d.erase k).entries ++ [(k, v)] :=
  assign_of_not_mem fun hmem => by
    obtain ⟨p, hp, rfl⟩ := List.mem_map.mp hmem
    simpa using (List.mem_filter.mp hp).2

theorem keys_erase (d : Dict κ ν) (k : κ) : (d.erase k).keys = d.keys.filter (· ≠ k) :=
  (List.filter_map (p := fun k' => decide (k' ≠ k)) (f := Prod.fst)).symm

theorem keys_erase_set (d : Dict κ ν) (k : κ) (v : ν) :
    ((d.erase k).set k v).keys = d.keys.filter (· ≠ k) ++ [k] := by
  rw [keys, entries_erase_set, List.map_append, ← keys, keys_erase]
  rfl

omit [DecidableEq κ] in
theorem keys_dropFirst (d : Dict κ ν) (n : Nat) : (d.dropFirst n).keys = d.keys.drop n :=
  List.map_drop

theorem mem_entries_iff (d : Dict κ ν) (k : κ) (v : ν) :
    (k, v) ∈ d.entries ↔ d.get? k = some v :=
  ⟨find_of_mem d.nodup, mem_of_find⟩

theorem get?_foldl_set (l : List (κ × ν)) (hn : (l.map Prod.fst).Nodup) (d : Dict κ ν) (k : κ) :
    (l.foldl (fun d p => d.set p.1 p.2) d).get? k = (find k l).or (d.get? k) := by
  induction l generalizing d with
  | nil => rfl
  | cons p r ih =>
    obtain ⟨a, v⟩ := p
    obtain ⟨hout, hr⟩ := List.nodup_cons.mp hn
    rw [List.foldl_cons, ih hr, get?_set, find]
    by_cases ha : a = k
    · subst ha
      have hnone : find a r = none := by
        cases hf : find a r with
        | none => rfl
        | some w => exact absurd (List.mem_map.mpr ⟨_, mem_of_find hf, rfl⟩) hout
      simp [hnone]
    · rw [if_neg ha, if_neg (Ne.symm ha)]

@[simp] theorem get?_update (d new : Dict κ ν) (k : κ) :
    (d.update new).get? k = (new.get? k).or (d.get? k) := get?_foldl_set _ new.nodup d k

theorem get?_restrict_of_notMem (d : Dict κ ν) {keys : List κ} {k : κ} (h : k ∉ keys) :
    (d.restrict keys).get? k = none := by
  cases hf : (d.restrict keys).get? k with
  | none => rfl
  | some v =>
    have hmem := List.mem_filter.mp (mem_of_find hf)
    exact absurd (of_decide_eq_true hmem.2) h

theorem mem_keys_iff (d : Dict κ ν) (k : κ) : k ∈ d.keys ↔ ∃ v, d.get? k = some v := by
  rw [keys, List.mem_map]
  constructor
  · rintro ⟨⟨k, v⟩, hmem, rfl⟩
    exact ⟨v, (d.mem_entries_iff k v).mp hmem⟩
  · rintro ⟨v, hv⟩
    exact ⟨(k, v), (d.mem_entries_iff k v).mpr hv, rfl⟩

theorem mem_keys_set (d : Dict κ ν) (k k' : κ) (v : ν) : k ∈ (d.set k' v).keys ↔ k = k' ∨ k ∈ d.keys :=
  mem_keys_assign k' v d.entries k

theorem mem_keys_foldl_set (l : List (κ × ν)) (d : Dict κ ν) (k : κ) :
    k ∈ (l.foldl (fun d p => d.set p.1 p.2) d).keys ↔ k ∈ l.map Prod.fst ∨ k ∈ d.keys := by
  induction l generalizing d with
  | nil => simp
  | cons p r ih =>
    rw [List.foldl_cons, ih, mem_keys_set, List.map_cons, List.mem_cons]
    tauto

theorem mem_keys_ofList (l : List (κ × ν)) (k : κ) : k ∈ (ofList l).keys ↔ k ∈ l.map Prod.fst := by
  rw [ofList, mem_keys_foldl_set]
  exact or_iff_left List.not_mem_nil

theorem get?_ofList {l : List (κ × ν)} (hn : (l.map Prod.fst).Nodup) (k : κ) :
    (ofList l).get? k = find k l := by
  rw [ofList, get?_foldl_set l hn, get?_empty, Option.or_none]

theorem find_filter_map {ν' : Type v} (q : ν → Bool) (f : ν → ν') {l : List (κ × ν)}
    (hn : (l.map Prod.fst).Nodup) (k : κ) :
    find k ((l.filter fun p => q p.2).map fun p => (p.1, f p.2)) = ((find k l).filter q).map f := by
  induction l with
  | nil => rfl
  | cons p r ih =>
    obtain ⟨a, w⟩ := p
    obtain ⟨hout, hr⟩ := List.nodup_cons.mp hn
    by_cases ha : a = k
    · subst ha
      have hnone : find a r = none := by
        cases hf : find a r with
        | none => rfl
        | some x => exact absurd (List.mem_map.mpr ⟨_, mem_of_find hf, rfl⟩) hout
      cases hq : q w with
      | true => simp [find, hq, Option.filter_some]
      | false => simp [find, ih hr, hnone, hq, Option.filter_some]
    · rw [List.filter_cons]
      split
      · simp [find, ha, ih hr]
      · simp [find, ha, ih hr]

theorem get?_ofList_filter_map {ν' : Type v} (q : ν → Bool) (f : ν → ν') (d : Dict κ ν) (k : κ) :
    (ofList ((d.entries.filter fun p => q p.2).map fun p => (p.1, f p.2))).get? k =
      ((d.get? k).filter q).map f := by
  rw [get?_ofList, find_filter_map q f d.nodup, get?]
  rw [List.map_map]
  exact (List.filter_sublist.map Prod.fst).nodup d.nodup

theorem get?_dropFirst_of_mem {d : Dict κ ν} {k : κ} {v : ν} {n : Nat} (h : d.get? k = some v)
    (hk : k ∈ d.keys.drop n) : (d.dropFirst n).get? k = some v := by
  rw [← keys_dropFirst, mem_keys_iff] at hk
  obtain ⟨w, hw⟩ := hk
  have hold : (k, w) ∈ d.entries := List.mem_of_mem_drop (mem_of_find hw)
  rw [mem_entries_iff, h] at hold
  cases hold
  exact hw

theorem get?_dropFirst_erase_set {d : Dict κ ν} {k : κ} {v : ν} {n : Nat}
    (h : n < ((d.erase k).set k v).entries.length) :
    (((d.erase k).set k v).dropFirst n).get? k = some v := by
  rw [← mem_entries_iff]
  rw [entries_erase_set, List.length_append, List.length_singleton] at h
  change (k, v) ∈ ((d.erase k).set k v).entries.drop n
  rw [entries_erase_set, List.drop_append_of_le_length (by omega)]
  exact List.mem_append_right _ (List.mem_singleton_self _)

end Dict

end ProxySplit.Lib
