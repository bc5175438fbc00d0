import ProxySplit.Handlers.Request

namespace ProxySplit

open Lib Prog

def requestOf : FetchEffect → Option HttpRequest
  | .http r => some r
  | _ => none

/-- The requests that a fetcher sent. -/
def requestsIn (tr : FetchTrace) : List HttpRequest := tr.filterMap fun ev => requestOf ev.1

def Task.requests {α : Type} {p : Fetch (Except PyExc α)} (t : Task p) : List HttpRequest :=
  requestsIn t.trace

def requestsOfAll {α : Type} {n : Nat} {p : Fin n → Fetch (Except PyExc α)}
    (tasks : (i : Fin n) → Option (Task (p i))) : List HttpRequest :=
  (List.finRange n).flatMap fun i => ((tasks i).map Task.requests).getD []

def StreamRun.raceRequests {plan : StreamPlan} {jobs : List ChunkJob} (run : StreamRun plan jobs) :
    List HttpRequest :=
  match h : plan.raceJob with
  | some job => ((run.raceTask job h).map Task.requests).getD []
  | none => []

/-- The upstream requests that belong to an event of a request.  Warming up connections to the fixed
`prewarm_url` is not among them. -/
def upstream : (e : RequestEffect) → RequestAnswer e → List HttpRequest
  | .fetch _ e, _ => (requestOf e).toList
  | .heads _ _, run => requestsOfAll run.tasks
  | .gather _ _ _, run => requestsOfAll run.tasks
  | .stream _ _, run => requestsOfAll run.tasks ++ run.raceRequests
  | _, _ => []

theorem requestsOfAll_eq_nil {α : Type} {n : Nat} {p : Fin n → Fetch (Except PyExc α)}
    {tasks : (i : Fin n) → Option (Task (p i))}
    (h : ∀ i t, tasks i = some t → t.requests = []) : requestsOfAll tasks = [] := by
  rw [requestsOfAll, List.flatMap_eq_nil_iff]
  intro i _
  cases ht : tasks i with
  | none => rfl
  | some t => exact h i t ht

theorem mem_requestsOfAll {α : Type} {n : Nat} {p : Fin n → Fetch (Except PyExc α)}
    {tasks : (i : Fin n) → Option (Task (p i))} {i : Fin n} {t : Task (p i)} {r : HttpRequest}
    (ht : tasks i = some t) (hr : r ∈ t.requests) : r ∈ requestsOfAll tasks := by
  rw [requestsOfAll, List.mem_flatMap]
  exact ⟨i, List.mem_finRange i, by rwa [ht]⟩

theorem exists_of_mem_requestsOfAll {α : Type} {n : Nat} {p : Fin n → Fetch (Except PyExc α)}
    {tasks : (i : Fin n) → Option (Task (p i))} {r : HttpRequest} (h : r ∈ requestsOfAll tasks) :
    ∃ i t, tasks i = some t ∧ r ∈ t.requests := by
  obtain ⟨i, -, hi⟩ := List.mem_flatMap.mp h
  cases ht : tasks i with
  | none => simp [ht] at hi
  | some t => exact ⟨i, t, ht, by simpa [ht] using hi⟩

theorem StreamRun.mem_raceRequests_iff {plan : StreamPlan} {jobs : List ChunkJob}
    {run : StreamRun plan jobs} {r : HttpRequest} :
    r ∈ run.raceRequests ↔ ∃ job hjob t, run.raceTask job hjob = some t ∧ r ∈ t.requests := by
  unfold raceRequests
  split
  · next job hjob =>
    constructor
    · intro h
      cases ht : run.raceTask job hjob with
      | none => simp [ht] at h
      | some t => exact ⟨job, hjob, t, ht, by simpa [ht] using h⟩
    · rintro ⟨job', hjob', t, ht, hr⟩
      obtain rfl := Option.some.inj (hjob.symm.trans hjob')
      rw [ht]
      exact hr
  · next hnone =>
    refine iff_of_false (List.not_mem_nil) ?_
    rintro ⟨job, hjob, -⟩
    rw [hnone] at hjob
    cases hjob

theorem StreamRun.raceRequests_eq_nil {plan : StreamPlan} {jobs : List ChunkJob}
    {run : StreamRun plan jobs}
    (h : ∀ job hjob t, run.raceTask job hjob = some t → t.requests = []) :
    run.raceRequests = [] := by
  unfold raceRequests
  split
  · next job hjob =>
    cases ht : run.raceTask job hjob with
    | none => rfl
    | some t => exact h job hjob t ht
  · rfl

end ProxySplit
