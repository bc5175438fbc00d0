import ProxySplit.Handlers.Window

namespace ProxySplit

def Shared (assigned : List Url) : Prop := ∀ p ∈ assigned, ∀ q ∈ assigned, p = q

/-- The answers of `per_proxy_chunk_size` for the assigned proxies one after the other.  Each of them
depends on the calls so far. -/
def sizesOf (size : List Url → Int) (assigned : List Url) (i : Nat) : Int := size (assigned.take (i + 1))

def offsetAfter (size : List Url → Int) (start stop : Int) (p : Url) (k : Nat) : Int :=
  (perProxyLoop (sizesOf size (List.replicate k p)) stop (List.replicate k p) 0 start).2

section Loop

variable {sizes sizes' : Nat → Int} {stop cur : Int} {i : Nat} {as bs : List Url}

theorem perProxyLoop_of_lt (h : stop < cur) : perProxyLoop sizes stop as i cur = ([], cur) := by
  cases as with
  | nil => rfl
  | cons p as => rw [perProxyLoop, if_pos h]

theorem perProxyLoop_append : perProxyLoop sizes stop (as ++ bs) i cur =
    ((perProxyLoop sizes stop as i cur).1 ++ (perProxyLoop sizes stop bs (i + as.length)
      (perProxyLoop sizes stop as i cur).2).1,
    (perProxyLoop sizes stop bs (i + as.length) (perProxyLoop sizes stop as i cur).2).2) := by
  induction as generalizing i cur with
  | nil => rfl
  | cons p as ih =>
    by_cases h : stop < cur
    · rw [perProxyLoop_of_lt h, perProxyLoop_of_lt h, perProxyLoop_of_lt h]
      rfl
    · rw [List.cons_append, perProxyLoop, if_neg h, perProxyLoop, if_neg h, List.length_cons]
      simp only [ih, List.cons_append]
      rw [Nat.add_assoc, Nat.add_comm 1 as.length]

theorem perProxyLoop_congr (h : ∀ k < as.length, sizes (i + k) = sizes' (i + k)) :
    perProxyLoop sizes stop as i cur = perProxyLoop sizes' stop as i cur := by
  induction as generalizing i cur with
  | nil => rfl
  | cons p as ih =>
    have hrest : ∀ cur, perProxyLoop sizes stop as (i + 1) cur =
        perProxyLoop sizes' stop as (i + 1) cur := by
      intro cur
      refine ih fun k hk => ?_
      rw [Nat.add_assoc, Nat.add_comm 1 k]
      exact h (k + 1) (Nat.succ_lt_succ hk)
    have hfirst : sizes i = sizes' i := h 0 (Nat.succ_pos _)
    simp only [perProxyLoop, hfirst, hrest]

theorem length_perProxyLoop_le : (perProxyLoop sizes stop as i cur).1.length ≤ as.length := by
  induction as generalizing i cur with
  | nil => exact Nat.le_refl _
  | cons p as ih =>
    rw [perProxyLoop]
    split
    · exact Nat.zero_le _
    · exact Nat.succ_le_succ ih

theorem length_perProxyLoop_of_le (h : (perProxyLoop sizes stop as i cur).2 ≤ stop) :
    (perProxyLoop sizes stop as i cur).1.length = as.length := by
  induction as generalizing i cur with
  | nil => rfl
  | cons p as ih =>
    rw [perProxyLoop] at h ⊢
    split
    · next hlt =>
      rw [if_pos hlt] at h
      exact absurd h (not_le.mpr hlt)
    · next hlt =>
      rw [if_neg hlt] at h
      simp only [List.length_cons, ih h]

end Loop

theorem rangeLoop_of_lt {chunkSize stop start : Int} {fuel idx : Nat} (h : stop < start) :
    rangeLoop chunkSize stop fuel start idx = some [] := by
  cases fuel with
  | zero => rw [rangeLoop, if_neg (not_le.mpr h)]
  | succ fuel => rw [rangeLoop, if_neg (not_le.mpr h)]

theorem exists_filler {chunkSize stop start : Int} (hsize : 1 ≤ chunkSize) (idx : Nat) :
    ∃ rs, rangeLoop chunkSize stop (stop - start + 1).toNat start idx = some rs := by
  by_cases h : start ≤ stop + 1
  · obtain ⟨rs, hrs, -⟩ := rangeLoop_spec hsize idx h le_rfl
    exact ⟨rs, hrs⟩
  · exact ⟨[], rangeLoop_of_lt (by omega)⟩

section Resize

variable {sizes : Nat → Int} {ranges rs : List ChunkRange} {assigned as : List Url}
  {start stop base : Int}

theorem length_of_applyPerProxyChunkSizes (hlen : assigned.length = ranges.length)
    (h : applyPerProxyChunkSizes sizes ranges assigned start stop base = some (rs, as)) :
    as.length = rs.length := by
  unfold applyPerProxyChunkSizes at h
  split at h
  · cases h
    exact hlen
  · next hcard =>
    have hne : assigned ≠ [] := by
      rintro rfl
      simp at hcard
    obtain ⟨filler, -, hout⟩ := Option.map_eq_some_iff.mp h
    cases hout
    have hle : (perProxyLoop sizes stop assigned 0 start).1.length ≤ assigned.length :=
      length_perProxyLoop_le
    rw [List.length_take, length_extendLast hne, List.length_append]
    omega

theorem take_extendLast {n m : Nat} (h : n ≤ assigned.length) :
    (extendLast assigned m).take n = assigned.take n := by
  unfold extendLast
  split
  · rw [List.take_append_of_le_length h]
  · rfl

variable {size : List Url → Int} {p q : Url} {j k : Nat}

theorem perProxyLoop_replicate (bs : List Url) :
    perProxyLoop (sizesOf size (List.replicate j p ++ bs)) stop (List.replicate j p) 0 start =
      perProxyLoop (sizesOf size (List.replicate j p)) stop (List.replicate j p) 0 start := by
  refine perProxyLoop_congr fun k hk => ?_
  rw [sizesOf, sizesOf, List.take_append_of_le_length (by omega)]

theorem offsetAfter_mono (hjk : j ≤ k) (h : offsetAfter size start stop p k ≤ stop) :
    offsetAfter size start stop p j ≤ stop := by
  by_contra hlt
  obtain ⟨d, rfl⟩ := Nat.exists_eq_add_of_le hjk
  rw [offsetAfter, List.replicate_add, perProxyLoop_append, perProxyLoop_replicate] at h
  rw [offsetAfter, not_le] at hlt
  rw [perProxyLoop_of_lt hlt] at h
  exact absurd h (not_le.mpr hlt)

/-- If a second proxy is among the assigned ones, all chunks have the first one exactly if its own chunks
get to the end before. -/
theorem shared_applyPerProxyChunkSizes (hj : 0 < j) (hne : q ≠ p) (hbase : 1 ≤ base) (bs : List Url) :
    ∃ rs as, applyPerProxyChunkSizes (sizesOf size (List.replicate j p ++ q :: bs)) ranges
        (List.replicate j p ++ q :: bs) start stop base = some (rs, as) ∧
      (Shared as ↔ stop < offsetAfter size start stop p j) := by
  have hp : p ∈ List.replicate j p ++ q :: bs :=
    List.mem_append_left _ (List.mem_replicate.mpr ⟨hj.ne', rfl⟩)
  have hq : q ∈ List.replicate j p ++ q :: bs := List.mem_append_right _ (.head _)
  have hcard : ¬ (List.replicate j p ++ q :: bs).toFinset.card ≤ 1 := by
    intro hle
    exact hne (Finset.card_le_one.mp hle q (List.mem_toFinset.mpr hq) p (List.mem_toFinset.mpr hp))
  have hlong : j + 1 ≤ (List.replicate j p ++ q :: bs).length := by
    rw [List.length_append, List.length_replicate, List.length_cons]
    omega
  obtain ⟨first, off, hfirst⟩ : ∃ first off, perProxyLoop (sizesOf size (List.replicate j p))
      stop (List.replicate j p) 0 start = (first, off) := ⟨_, _, rfl⟩
  have hoff : offsetAfter size start stop p j = off := by rw [offsetAfter, hfirst]
  rw [applyPerProxyChunkSizes, if_neg hcard, perProxyLoop_append, perProxyLoop_replicate, hfirst, hoff]
  by_cases hlt : stop < off
  · have hlen : first.length ≤ j := by
      have hle : (perProxyLoop (sizesOf size (List.replicate j p)) stop (List.replicate j p) 0
        start).1.length ≤ (List.replicate j p).length := length_perProxyLoop_le
      rwa [hfirst, List.length_replicate] at hle
    simp only [perProxyLoop_of_lt hlt, rangeLoop_of_lt hlt, Option.map_some]
    refine ⟨_, _, rfl, iff_of_true ?_ hlt⟩
    have hshort : (first ++ [] ++ []).length ≤ j := by simpa using hlen
    rw [take_extendLast (by omega), List.take_append_of_le_length (by simpa using hshort)]
    intro a ha b hb
    rw [List.eq_of_mem_replicate (List.mem_of_mem_take ha),
      List.eq_of_mem_replicate (List.mem_of_mem_take hb)]
  · have hlen : first.length = j := by
      have heq := length_perProxyLoop_of_le (h := by rw [hfirst]; exact not_lt.mp hlt)
      rwa [hfirst, List.length_replicate] at heq
    obtain ⟨rest, off', hrest⟩ : ∃ rest off', perProxyLoop
        (sizesOf size (List.replicate j p ++ q :: bs)) stop (q :: bs) (0 + (List.replicate j p).length)
          off = (rest, off') := ⟨_, _, rfl⟩
    have hpos : 0 < rest.length := by
      rw [perProxyLoop, if_neg hlt] at hrest
      cases hrest
      exact Nat.succ_pos _
    obtain ⟨filler, hfiller⟩ : ∃ filler, rangeLoop base stop (stop - off' + 1).toNat off'
      (first ++ rest).length = some filler := exists_filler hbase _
    simp only [hrest, hfiller, Option.map_some]
    refine ⟨_, _, rfl, iff_of_false (fun hshared => hne ?_) hlt⟩
    -- the proxies of the first `j + 1` chunks are kept
    have hkept : ∀ a ∈ List.replicate j p ++ [q], a ∈ (extendLast (List.replicate j p ++ q :: bs)
        filler.length).take (first ++ rest ++ filler).length := by
      intro a ha
      apply List.mem_of_mem_take (i := j + 1)
      rw [List.take_take, Nat.min_eq_left (by simp only [List.length_append]; omega),
        take_extendLast hlong, List.take_append]
      simpa using ha
    refine hshared q (hkept q ?_) p (hkept p ?_)
    · exact List.mem_append_right _ (.head _)
    · exact List.mem_append_left _ (List.mem_replicate.mpr ⟨hj.ne', rfl⟩)

end Resize

section Ranges

variable {sizes : Nat → Int} {ranges rs : List ChunkRange} {assigned as : List Url}
  {start stop base : Int}

/-- `build_ranges` with all its arguments. -/
def buildRangesFrom (contentLength chunkSize startOffset : Int) (endOffset : Option Int) :
    Option (List ChunkRange) :=
  buildRanges chunkSize startOffset (endOffset.getD (contentLength - 1))

theorem prefix_extendLast (assigned : List Url) (n : Nat) : assigned <+: extendLast assigned n := by
  unfold extendLast
  split
  · exact List.prefix_append _ _
  · exact List.prefix_refl _

theorem getElem?_of_applyPerProxyChunkSizes
    (h : applyPerProxyChunkSizes sizes ranges assigned start stop base = some (rs, as)) {i : Nat}
    {p q : Url} (hp : as[i]? = some p) (hq : assigned[i]? = some q) : p = q := by
  unfold applyPerProxyChunkSizes at h
  split at h
  · cases h
    exact Option.some.inj (hp.symm.trans hq)
  · obtain ⟨filler, -, hout⟩ := Option.map_eq_some_iff.mp h
    cases hout
    obtain ⟨hi, rfl⟩ := List.getElem?_eq_some_iff.mp hq
    have hext := List.prefix_iff_getElem?.mp (prefix_extendLast assigned filler.length) i hi
    obtain ⟨hlt, -⟩ := List.getElem?_eq_some_iff.mp hp
    rw [List.length_take, lt_min_iff] at hlt
    rw [List.getElem?_take_of_lt hlt.1, hext] at hp
    exact (Option.some.inj hp).symm

/-- Both functions come to an end with ranges that partition the window, whatever the proxies and the sizes
are that they ask for, and every range has its proxy. -/
theorem ranges_partition (contentLength chunkSize start : Int) (endOffset : Option Int)
    (hwindow : start ≤ endOffset.getD (contentLength - 1)) (hsize : 1 ≤ chunkSize) :
    ∃ ranges, buildRangesFrom contentLength chunkSize start endOffset = some ranges ∧
      Partition start (endOffset.getD (contentLength - 1)) ranges ∧
      ∀ (sizes : Nat → Int) (assigned : List Url), (∀ i, 1 ≤ sizes i) →
        assigned.length = ranges.length → ∃ rs as,
          applyPerProxyChunkSizes sizes ranges assigned start (endOffset.getD (contentLength - 1))
            chunkSize = some (rs, as) ∧
          Partition start (endOffset.getD (contentLength - 1)) rs ∧ as.length = rs.length ∧
          ∀ (i : Nat) (p q : Url), as[i]? = some p → assigned[i]? = some q → p = q := by
  have hstart : start ≤ endOffset.getD (contentLength - 1) + 1 := by omega
  obtain ⟨ranges, hranges, hpart⟩ := buildRanges_spec hsize hstart
  refine ⟨ranges, hranges, hpart, fun sizes assigned hsizes hlen => ?_⟩
  obtain ⟨rs, as, happly, hrs, has⟩ :=
    applyPerProxyChunkSizes_spec hsize hsizes hstart hpart hlen
  exact ⟨rs, as, happly, hrs, has, fun i p q => getElem?_of_applyPerProxyChunkSizes happly⟩

theorem ranges_partition_ten : ∃ rs as,
    applyPerProxyChunkSizes (fun i => if i = 1 then 2 else 3) [⟨0, 3, 0⟩, ⟨4, 7, 1⟩, ⟨8, 9, 2⟩]
      ["http://10.0.0.1:8080", "http://10.0.0.2:8080", "http://10.0.0.1:8080"] 0 9 4 = some (rs, as) ∧
    Partition 0 9 rs ∧ as.length = rs.length := by
  obtain ⟨ranges, hranges, -, happly⟩ := ranges_partition 10 4 0 none (by decide) (by decide)
  have hthree : buildRangesFrom 10 4 0 none = some [⟨0, 3, 0⟩, ⟨4, 7, 1⟩, ⟨8, 9, 2⟩] := by decide
  rw [hthree] at hranges
  cases hranges
  obtain ⟨rs, as, hout, hpart, hlen, -⟩ := happly (fun i => if i = 1 then 2 else 3)
    ["http://10.0.0.1:8080", "http://10.0.0.2:8080", "http://10.0.0.1:8080"]
    (fun i => by split <;> decide) rfl
  exact ⟨rs, as, hout, hpart, hlen⟩

end Ranges

end ProxySplit
