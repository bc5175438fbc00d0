import ProxySplit.PyFloat
import ProxySplit.Fetchers.Head
import Mathlib.Data.List.MinMax

namespace ProxySplit

open Lib

structure Cached where
  status : Nat
  body : Bytes
  headers : Headers
  deriving DecidableEq

/-- `headers.get(name)` of a plain dict, where the case of a name matters. -/
def dictGet (headers : Headers) (name : String) : Option String :=
  (headers.find? fun h => h.1 = name).map Prod.snd

/-- `headers.get("Cache-Control", "").lower()`. -/
def cacheControl (headers : Headers) : List Char :=
  ((dictGet headers "Cache-Control").getD "").toLower.toList

def forbidsStore (headers : Headers) : Bool :=
  ["no-store", "no-cache", "private"].any fun word =>
    word.toList <:+: cacheControl headers

/-- The time to live: that of the first `max-age` if it is a number. -/
def ttlOf (headers : Headers) (defaultTtl : PyFloat) : PyFloat :=
  let parts := ((cacheControl headers).splitOn ',').map PyText.strip
  match parts.find? fun part => "max-age=".toList.isPrefixOf part with
  | some part => (PyFloat.parse (part.drop 8)).getD defaultTtl
  | none => defaultTtl

structure CacheEntry where
  cached : Cached
  expires : PyFloat
  cachedAt : ℚ
  deriving DecidableEq

/-- The in-memory cache.  The order of the store is that of the last use. -/
structure ResponseCache where
  maxSize : Int
  defaultTtl : PyFloat
  maxBody : Int
  store : Dict Url CacheEntry
  deriving DecidableEq

namespace ResponseCache

def enabled (c : ResponseCache) : Bool := 0 < c.maxSize

def get (c : ResponseCache) (now : Clock) (url : Url) : ResponseCache × Option Cached :=
  if c.enabled then
    match c.store.get? url with
    | none => (c, none)
    | some entry =>
      if entry.expires.lt now.monotonic then ({ c with store := c.store.erase url }, none)
      else ({ c with store := (c.store.erase url).set url entry }, some entry.cached)
  else (c, none)

def getValidators (c : ResponseCache) (url : Url) : Option (Option String × Option String) :=
  if c.enabled then
    (c.store.get? url).map fun entry =>
      (dictGet entry.cached.headers "ETag", dictGet entry.cached.headers "Last-Modified")
  else none

/-- `put` stores the response. -/
def accepts (c : ResponseCache) (r : Cached) : Bool :=
  c.enabled ∧ r.body.length ≤ c.maxBody ∧ ¬ forbidsStore r.headers ∧
    ¬ (ttlOf r.headers c.defaultTtl).le 0

def put (c : ResponseCache) (now : Clock) (url : Url) (r : Cached) : ResponseCache :=
  if c.accepts r then
    let entry := ⟨r, (ttlOf r.headers c.defaultTtl).addTo now.monotonic, now.time⟩
    let store := (c.store.erase url).set url entry
    { c with store := store.dropFirst (store.entries.length - c.maxSize.toNat) }
  else c

def invalidate (c : ResponseCache) (url : Url) : ResponseCache :=
  { c with store := c.store.erase url }

def clear (c : ResponseCache) : ResponseCache := { c with store := .empty }

end ResponseCache

structure DiskEntry where
  cached : Cached
  expires : PyFloat
  cachedAt : ℚ
  size : Nat
  deriving DecidableEq

/-- The table of the disk cache. -/
structure DiskCache where
  maxSize : Int
  defaultTtl : PyFloat
  maxBody : Int
  responses : Dict Url DiskEntry
  deriving DecidableEq

namespace DiskCache

def get (c : DiskCache) (now : Clock) (url : Url) : DiskCache × Option Cached :=
  match c.responses.get? url with
  | none => (c, none)
  | some row =>
    if row.expires.lt now.monotonic then ({ c with responses := c.responses.erase url }, none)
    else (c, some row.cached)

/-- The loop of `_enforce_limit`. -/
def enforceLimit (maxSize : Int) : (rows : Nat) → (total : Int) → Dict Url DiskEntry →
    Dict Url DiskEntry
  | 0, _, table => table
  | rows + 1, total, table =>
    if maxSize < total then
      match table.entries.argmin fun row => row.2.cachedAt with
      | some (url, row) => enforceLimit maxSize rows (total - row.size) (table.erase url)
      | none => table
    else table

/-- `put` stores the response.  A column that is `NOT NULL` takes no `nan`. -/
def accepts (c : DiskCache) (r : Cached) : Bool :=
  r.body.length ≤ c.maxBody ∧ ¬ forbidsStore r.headers ∧
    ¬ (ttlOf r.headers c.defaultTtl).le 0 ∧ ttlOf r.headers c.defaultTtl ≠ .nan

def put (c : DiskCache) (now : Clock) (url : Url) (r : Cached) : DiskCache :=
  if c.accepts r then
    let row := ⟨r, (ttlOf r.headers c.defaultTtl).addTo now.monotonic, now.time, r.body.length⟩
    let table := (c.responses.erase url).set url row
    let total := (table.entries.map fun row => (row.2.size : Int)).sum
    { c with responses := enforceLimit c.maxSize table.entries.length total table }
  else c

def invalidate (c : DiskCache) (url : Url) : DiskCache :=
  { c with responses := c.responses.erase url }

def clear (c : DiskCache) : DiskCache := { c with responses := .empty }

end DiskCache

section Stored

variable {now : Clock} {url u : Url} {r : Cached}

theorem get?_dropFirst {d : Dict Url CacheEntry} {n : Nat} {entry : CacheEntry}
    (h : (d.dropFirst n).get? u = some entry) : d.get? u = some entry := by
  rw [← Dict.mem_entries_iff] at h ⊢
  exact List.mem_of_mem_drop h

theorem get?_erase_set {κ ν : Type} [DecidableEq κ] {d : Dict κ ν} {k k' : κ} {v v' : ν}
    (h : ((d.erase k).set k v).get? k' = some v') : k' = k ∧ v' = v ∨ d.get? k' = some v' := by
  rw [Dict.get?_set, Dict.get?_erase] at h
  by_cases hk : k' = k
  · simp only [hk, if_true, Option.some.injEq] at h
    exact .inl ⟨hk, h.symm⟩
  · simp only [hk, if_false] at h
    exact .inr h

namespace ResponseCache

variable {c : ResponseCache} {entry : CacheEntry}

theorem stored_of_get (h : (c.get now url).1.store.get? u = some entry) :
    c.store.get? u = some entry := by
  unfold get at h
  split at h
  · split at h
    · exact h
    · next found hfound =>
      split at h
      · simp only [Dict.get?_erase] at h
        split at h
        · cases h
        · exact h
      · rcases get?_erase_set h with ⟨rfl, rfl⟩ | h
        · exact hfound
        · exact h
  · exact h

theorem stored_of_hit (h : (c.get now url).2 = some r) :
    ∃ entry, c.store.get? url = some entry ∧ entry.cached = r := by
  unfold get at h
  split at h
  · split at h
    · cases h
    · next entry hentry =>
      split at h
      · cases h
      · cases h; exact ⟨entry, hentry, rfl⟩
  · cases h

theorem stored_of_put (h : (c.put now url r).store.get? u = some entry) :
    c.store.get? u = some entry ∨ c.accepts r = true ∧ u = url ∧ entry.cached = r := by
  unfold put at h
  split at h
  · next hacc =>
    rcases get?_erase_set (get?_dropFirst h) with ⟨rfl, rfl⟩ | h
    · exact .inr ⟨hacc, rfl, rfl⟩
    · exact .inl h
  · exact .inl h

end ResponseCache

namespace DiskCache

variable {c : DiskCache} {row : DiskEntry}

theorem stored_of_get (h : (c.get now url).1.responses.get? u = some row) :
    c.responses.get? u = some row := by
  unfold get at h
  split at h
  · exact h
  · split at h
    · simp only [Dict.get?_erase] at h
      split at h
      · cases h
      · exact h
    · exact h

theorem stored_of_hit (h : (c.get now url).2 = some r) :
    ∃ row, c.responses.get? url = some row ∧ row.cached = r := by
  unfold get at h
  split at h
  · cases h
  · next row hrow =>
    split at h
    · cases h
    · cases h; exact ⟨row, hrow, rfl⟩

theorem stored_of_enforceLimit {maxSize total : Int} {rows : Nat} {table : Dict Url DiskEntry}
    (h : (enforceLimit maxSize rows total table).get? u = some row) :
    table.get? u = some row := by
  induction rows generalizing total table with
  | zero => exact h
  | succ rows ih =>
    rw [enforceLimit] at h
    split at h
    · split at h
      · have hget := ih h
        rw [Dict.get?_erase] at hget
        split at hget
        · cases hget
        · exact hget
      · exact h
    · exact h

theorem stored_of_put (h : (c.put now url r).responses.get? u = some row) :
    c.responses.get? u = some row ∨ c.accepts r = true ∧ u = url ∧ row.cached = r := by
  unfold put at h
  split at h
  · next hacc =>
    rcases get?_erase_set (stored_of_enforceLimit h) with ⟨rfl, rfl⟩ | h
    · exact .inr ⟨hacc, rfl, rfl⟩
    · exact .inl h
  · exact .inl h

end DiskCache

end Stored

end ProxySplit
