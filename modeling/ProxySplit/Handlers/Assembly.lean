import ProxySplit.Handlers.Inner

namespace ProxySplit

open Lib Prog

section Results

variable {rely : (e : FetchEffect) → FetchAnswer e → Prop} {job : ChunkJob}

def Fits (job : ChunkJob) (r : Except PyExc ChunkResult) : Prop :=
  ∀ res, r = .ok res → res.index = job.index ∧ (res.data.length : Int) = job.expectedSize

theorem keeps_getRange {current : Url} :
    Keeps rely (fun _ _ => True) (getRange job current) (Fits job) := by
  simp only [getRange, keeps_bind, keeps_call]
  refine fun r _ => ⟨trivial, ?_⟩
  split
  · rintro _ ⟨⟩
  · split
    · next hlen =>
      simp only [keeps_bind, keeps_call]
      refine fun _ _ => ⟨trivial, fun _ _ => ⟨trivial, ?_⟩⟩
      intro res hres
      cases hres
      exact ⟨rfl, hlen⟩
    · rintro _ ⟨⟩

theorem keeps_fetchAttempts {left attempt : Nat} {current : Url} {lastExc : PyExc} :
    Keeps rely (fun _ _ => True) (fetchAttempts job left attempt current lastExc) (Fits job) := by
  induction left generalizing attempt current lastExc with
  | zero => exact nofun
  | succ left ih =>
    rw [fetchAttempts, keeps_bind]
    refine keeps_of_forall fun cur => ?_
    rw [keeps_bind]
    refine keeps_of_forall fun slot => ?_
    split
    · exact nofun
    rw [keeps_bind]
    refine keeps_of_forall fun limiter => ?_
    split
    · exact nofun
    rw [keeps_bind]
    refine Keeps.mono (fun _ _ h => h) (fun _ _ _ h => h) (fun res hres => ?_) keeps_getRange
    split
    · exact hres
    · split
      · rw [keeps_bind]
        refine keeps_of_forall fun _ => ?_
        rw [keeps_bind]
        exact keeps_of_forall fun _ => ih
      · exact nofun

theorem Task.fits (t : Task (fetchChunk job)) : Fits job t.result := by
  have hkeeps : Keeps (fun _ _ => True) (fun _ _ => True) (fetchChunk job) (Fits job) :=
    keeps_fetchAttempts
  exact (hkeeps.run t.runs fun _ _ => trivial).2

end Results

section Collect

theorem collect_spec {P : Nat → Bytes → Prop} {results : List (Except PyExc ChunkResult)}
    (h : ∀ x ∈ results, ∃ res, x = .ok res ∧ P res.index res.data) {d : Dict Nat Bytes} :
    ∃ chunks, collect results d = .ok chunks ∧
      (∀ i data, chunks.get? i = some data → P i data ∨ d.get? i = some data) ∧
      ∀ i, (d.get? i).isSome ∨ (∃ res, .ok res ∈ results ∧ res.index = i) →
        (chunks.get? i).isSome := by
  induction results generalizing d with
  | nil => exact ⟨d, rfl, fun _ _ => .inr, by simp⟩
  | cons x rest ih =>
    obtain ⟨res, rfl, hP⟩ := h x (.head _)
    obtain ⟨chunks, hcollect, hdata, hsome⟩ :=
      @ih (fun x hx => h x (.tail _ hx)) (d.set res.index res.data)
    refine ⟨chunks, hcollect, ?_, ?_⟩
    · intro i data hi
      rcases hdata i data hi with hi | hi
      · exact .inl hi
      · rw [Dict.get?_set] at hi
        split at hi
        · next heq =>
          cases hi
          exact .inl (heq ▸ hP)
        · exact .inr hi
    · intro i hi
      apply hsome
      rw [Dict.get?_set]
      by_cases heq : i = res.index
      · simp [heq]
      · rw [if_neg heq]
        rcases hi with hi | ⟨res', hmem, hindex⟩
        · exact .inl hi
        · rcases List.mem_cons.mp hmem with hhead | hmem
          · cases hhead
            exact absurd hindex.symm heq
          · exact .inr ⟨res', hmem, hindex⟩

theorem mapM_eq_some {α β : Type} {f : α → Option β} {g : α → β} {l : List α}
    (h : ∀ a ∈ l, f a = some (g a)) : l.mapM f = some (l.map g) := by
  induction l with
  | nil => rfl
  | cons a l ih =>
    rw [List.mapM_cons, h a (.head _), ih fun a ha => h a (.tail _ ha)]
    rfl

end Collect

section Assemble

variable {resource : Bytes}

theorem slice_whole : slice resource 0 (resource.length - 1) = resource := by
  have hlen : ((resource.length : Int) - 1 - 0 + 1).toNat = resource.length := by omega
  rw [slice, hlen, Int.toNat_zero, List.drop_zero, List.take_length]

def Window.response (w : Window) (contentLength : Int) (ct : String) (body : Bytes) : Response where
  status := if w.isPartial then 206 else 200
  contentType := mediaType ct
  headers :=
    if w.isPartial then [StreamPlan.contentRange w.start w.stop contentLength] else []
  body := body

theorem assemble_of_data (args : InnerArgs) (contentLength : Int) (ct : String) {w : Window}
    {ranges : List ChunkRange} {results : List (Except PyExc ChunkResult)} {data : Nat → Bytes}
    (hsplit : Split w ranges)
    (hresults : ∀ x ∈ results, ∃ res, x = .ok res ∧ res.data = data res.index)
    (hsizes : ∀ i r, ranges[i]? = some r → ((data i).length : Int) = r.expected)
    (hall : ∀ i < ranges.length, ∃ res, .ok res ∈ results ∧ res.index = i) :
    assemble args contentLength ct w ranges results =
      .ok (.response (w.response contentLength ct ((List.range ranges.length).flatMap data))) := by
  obtain ⟨chunks, hcollect, hdata, hsome⟩ := collect_spec (P := fun i d => d = data i)
    hresults (d := .empty)
  have hget : ∀ i < ranges.length, chunks.get? i = some (data i) := by
    intro i hi
    obtain ⟨d, hfound⟩ := Option.isSome_iff_exists.mp (hsome i (.inr (hall i hi)))
    rw [hfound, (hdata i d hfound).resolve_right nofun]
  have hparts : (List.range ranges.length).mapM chunks.get? =
      some ((List.range ranges.length).map data) :=
    mapM_eq_some fun i hi => hget i (List.mem_range.mp hi)
  have hmatch : (ranges.find? fun r =>
      (((chunks.get? r.index).getD []).length : Int) ≠ r.stop - r.start + 1) = none := by
    rw [List.find?_eq_none]
    intro r hr
    obtain ⟨i, hi, rfl⟩ := List.mem_iff_getElem.mp hr
    have hsize := hsizes i ranges[i] (List.getElem?_eq_getElem hi)
    rw [ChunkRange.expected] at hsize
    simp [hsplit.indexed.index_getElem hi, hget i hi, hsize]
  have hlength : (((List.range ranges.length).flatMap data).length : Int) = w.length := by
    rw [length_flatMap_data le_rfl fun i r _ hr => hsizes i r hr, List.take_length,
      hsplit.consecutive.sum_eq, Window.length]
    omega
  rw [List.flatMap_def] at hlength ⊢
  simp only [assemble, hcollect, hmatch, hparts, hlength]
  simp [Window.response]

theorem assemble_of_run {args : InnerArgs} {contentLength : Int} {ct : String} {w : Window}
    {ranges : List ChunkRange} {assigned : List Url} {jobs : List ChunkJob} {maxWorkers budget : Nat}
    {data : Nat → Bytes} (run : GatherRun maxWorkers budget jobs) (hdone : run.interrupted = false)
    (hsplit : Split w ranges)
    (hjobs : List.Forall₂ (fun r j => ∃ p ∈ assigned, j = args.chunkJob r p) ranges jobs)
    (hdata : ∀ i t, run.tasks i = some t → ∃ res, t.result = .ok res ∧ res.data = data i) :
    assemble args contentLength ct w ranges run.results =
      .ok (.response (w.response contentLength ct ((List.range ranges.length).flatMap data))) := by
  have hlen := hjobs.length_eq
  have hfetched : ∀ (i : Fin jobs.length) t, run.tasks i = some t → ∃ res, t.result = .ok res ∧
      res.index = i ∧ res.data = data i ∧
        ∀ r, ranges[i.val]? = some r → (res.data.length : Int) = r.expected := by
    intro i t ht
    obtain ⟨res, hres, hd⟩ := hdata i t ht
    obtain ⟨hindex, hsize⟩ := t.fits res hres
    have hi : i.val < ranges.length := by rw [hlen]; exact i.isLt
    obtain ⟨p, -, hjob⟩ := hjobs.get hi i.isLt
    change jobs.get i = _ at hjob
    rw [hjob] at hindex hsize
    refine ⟨res, hres, hindex.trans (hsplit.indexed.index_getElem hi), hd, ?_⟩
    intro r hr
    rw [List.getElem?_eq_getElem hi] at hr
    cases hr
    exact hsize
  have hfinished : ∀ i < ranges.length, ∃ (h : i < jobs.length) (t : _), run.tasks ⟨i, h⟩ = some t := by
    intro i hi
    exact ⟨hlen ▸ hi, Option.isSome_iff_exists.mp (run.finished hdone ⟨i, hlen ▸ hi⟩)⟩
  apply assemble_of_data args contentLength ct hsplit
  · intro x hx
    obtain ⟨i, -, hi⟩ := List.mem_filterMap.mp hx
    obtain ⟨t, ht, rfl⟩ := Option.map_eq_some_iff.mp hi
    obtain ⟨res, hres, hindex, hd, -⟩ := hfetched i t ht
    exact ⟨res, hres, hindex ▸ hd⟩
  · intro i r hr
    obtain ⟨h, t, ht⟩ := hfinished i (List.getElem?_eq_some_iff.mp hr).1
    obtain ⟨res, -, -, hd, hsize⟩ := hfetched _ t ht
    exact hd ▸ hsize r hr
  · intro i hi
    obtain ⟨h, t, ht⟩ := hfinished i hi
    obtain ⟨res, hres, hindex, -⟩ := hfetched _ t ht
    exact ⟨res, List.mem_filterMap.mpr ⟨⟨i, h⟩, List.mem_finRange _, by rw [ht, Option.map_some, hres]⟩,
      hindex⟩

theorem assemble_gather {args : InnerArgs} {ct : String} {ranges : List ChunkRange}
    {assigned : List Url} {jobs : List ChunkJob} {maxWorkers budget : Nat}
    (run : GatherRun maxWorkers budget jobs) (hdone : run.interrupted = false)
    (hranges : Partition 0 (resource.length - 1) ranges)
    (hjobs : List.Forall₂ (fun r j => ∃ p ∈ assigned, j = args.chunkJob r p) ranges jobs)
    (hdata : ∀ i t, run.tasks i = some t →
      ∃ res, t.result = .ok res ∧ res.data = slice resource (jobs.get i).start (jobs.get i).stop) :
    assemble args resource.length ct (.whole resource.length) ranges run.results =
      .ok (.response ⟨200, mediaType ct, [], resource⟩) := by
  have hpart : Split (.whole resource.length) ranges := Partition.split hranges
  let part := fun (r : ChunkRange) => slice resource r.start r.stop
  let data := fun (i : Nat) => (ranges[i]?.map part).getD []
  have hslices : ∀ i t, run.tasks i = some t → ∃ res, t.result = .ok res ∧ res.data = data i := by
    intro i t ht
    obtain ⟨res, hres, hd⟩ := hdata i t ht
    have hi : i.val < ranges.length := by rw [hjobs.length_eq]; exact i.isLt
    obtain ⟨p, -, hjob⟩ := hjobs.get hi i.isLt
    change jobs.get i = _ at hjob
    refine ⟨res, hres, ?_⟩
    rw [hd, hjob]
    simp only [data, List.getElem?_eq_getElem hi, Option.map_some, Option.getD_some]
    rfl
  have hbody : (List.range ranges.length).flatMap data = resource := by
    have hmap : (List.range ranges.length).map data = ranges.map part := by
      refine List.ext_getElem (by simp) fun i hi _ => ?_
      have hlt : i < ranges.length := by simpa using hi
      simp [data, hlt]
    have htiles := hranges.tiles.flatMap_slice (l := resource) le_rfl
    rw [slice_whole, List.flatMap_map] at htiles
    rw [List.flatMap_def, hmap, ← List.flatMap_def]
    exact htiles
  rw [assemble_of_run run hdone hpart hjobs hslices, hbody]
  rfl

end Assemble

end ProxySplit
