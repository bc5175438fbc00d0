import ProxySplit.Handlers.Inner
import ProxySplit.Lib.FirstAnswer
import Mathlib.Data.Fintype.Basic

namespace ProxySplit.HeadTasks

open Lib

variable {args : ProbeArgs} {proxies : List Url}

/-- `_try_head(p)` as the task that `get_head_info` makes of it. -/
abbrev Probe (args : ProbeArgs) (proxies : List Url) (i : Fin proxies.length) : Type :=
  Task (tryHead args (proxies.get i))

/-- `t.result()`, where an exception and `None` let the loop go on. -/
def answer (i : Fin proxies.length) (t : Probe args proxies i) : Option HeadInfo := t.result.toOption.join

/-- Stage 1 of `get_head_info`: its tasks, and the loop around `asyncio.wait`. -/
abbrev State (args : ProbeArgs) (proxies : List Url) : Type :=
  FirstAnswer (Fin proxies.length) (Probe args proxies) HeadInfo

def machine (args : ProbeArgs) (proxies : List Url) :
    Machine (State args proxies) (FirstAnswer.Label (Fin proxies.length) (Probe args proxies)) :=
  FirstAnswer.machine answer

def outcome (s : State args proxies) : Option (Except PyExc (Option HeadInfo)) :=
  match s.pc with
  | .left r => some (.ok r)
  | .interrupted => some (.error .cancelled)
  | _ => none

variable {s : State args proxies}

theorem firstAnswer_eq (s : State args proxies) :
    firstAnswer s.ended s.seen = s.seen.findSome? (s.answerOf answer) := rfl

theorem exists_headsRun (h : FirstAnswer.Inv answer s) {r : Except PyExc (Option HeadInfo)}
    (hr : outcome s = some r) : ∃ run : HeadsRun args proxies, run.outcome = r ∧ run.tasks = s.ended ∧
      run.seen = s.seen := by
  unfold outcome at hr
  split at hr
  · next found hpc =>
    cases hr
    obtain ⟨hfound, hstill, hall⟩ := h.left found hpc
    refine ⟨⟨s.ended, s.seen, false, fun _ hnone i => ?_⟩, ?_, rfl, rfl⟩
    · rw [firstAnswer_eq, hfound] at hnone
      exact ⟨hall hnone i, h.ended i (hall hnone i)⟩
    · exact congrArg Except.ok hfound
  · next hpc =>
    cases hr
    exact ⟨⟨s.ended, s.seen, true, fun hfalse => (by cases hfalse)⟩, rfl, rfl, rfl⟩
  · cases hr

def timedOut (i : Fin proxies.length) : Probe args proxies i where
  trace := [⟨.http (args.headRequest (proxies.get i)), .error .timeout⟩, ⟨.recordFailure (proxies.get i), ()⟩]
  result := .ok none
  runs := .perform (.perform .pure)

/-- What the tasks do when stage 1 is over: none runs on, unless the request was cancelled.  Then either no
task was told to stop, or all that still run. -/
def LeftBehind (s : State args proxies) : Prop :=
  match s.pc with
  | .left _ => ∀ i, ¬ s.Running i
  | .interrupted => s.told = ∅ ∨ ∀ i, s.Running i → i ∈ s.told
  | _ => True

/-- Whatever the order in which the probes end, stage 1 answers as the requests take it to, with the results
that its loop has looked at; only if each of them is without an answer, it leaves the question to stage 2; and
it leaves no probe running.  Unless the request is cancelled it is over as soon as the probes are. -/
theorem headTasks_refine (hs : (machine args proxies).Reachable s) :
    (∀ r, outcome s = some r → ∃ run : HeadsRun args proxies, run.outcome = r ∧ run.tasks = s.ended ∧
      run.seen = s.seen) ∧
    (outcome s = some (.ok none) → ∀ i, ∃ t, s.ended i = some t ∧ t.result.toOption.join = none) ∧
    LeftBehind s ∧
    (s.pc ≠ .interrupted → ∃ ls s' r, (∀ l ∈ ls, l ≠ .interrupt) ∧ (machine args proxies).run s ls = some s' ∧
      outcome s' = some (.ok r)) := by
  have h := FirstAnswer.inv_of_reachable hs
  refine ⟨fun r hr => exists_headsRun h hr, fun hnone i => ?_, ?_, fun hpc => ?_⟩
  · obtain ⟨run, hrun, htasks, hseen⟩ := exists_headsRun h hnone
    unfold HeadsRun.outcome at hrun
    split at hrun
    · cases hrun
    · next hinterrupted =>
      have hfound : firstAnswer run.tasks run.seen = none := Except.ok.inj hrun
      obtain ⟨hi, hsome⟩ := run.finished (Bool.eq_false_iff.mpr hinterrupted) hfound i
      obtain ⟨t, ht⟩ := Option.isSome_iff_exists.mp hsome
      refine ⟨t, htasks ▸ ht, ?_⟩
      have hlooked := List.findSome?_eq_none_iff.mp hfound i hi
      rw [ht] at hlooked
      exact hlooked
  · unfold LeftBehind
    split
    · next r hpc => exact (h.left r hpc).2.1
    · next hpc => exact h.interrupted hpc
    · trivial
  · obtain ⟨ls, s', r, hls, hrun, hs'⟩ := h.exists_left hpc timedOut
    exact ⟨ls, s', r, hls, hrun, by rw [outcome, hs']⟩

def fileProbe : ProbeArgs where
  url := "http://files.test/file.bin"
  reqHeaders := []
  pool := none
  weighted := true
  headRetries := 3

def fileLength : HeadInfo := ⟨some 4096, true, "application/octet-stream"⟩

def fileServer : (e : FetchEffect) → Option (FetchAnswer e)
  | .http _ => some (.ok ⟨200, [("Content-Length", "4096"), ("Accept-Ranges", "bytes")], [], 20⟩)
  | _ => none

theorem second_probe_first :
    ∃ s, (machine fileProbe ["http://10.0.0.1:8080", "http://10.0.0.2:8080"]).Reachable s ∧
      (∃ run : HeadsRun fileProbe ["http://10.0.0.1:8080", "http://10.0.0.2:8080"],
        run.outcome = .ok (some fileLength)) ∧
      s.told = {0} ∧ LeftBehind s := by
  have hrun : ((tryHead fileProbe "http://10.0.0.2:8080").execWith fileServer).any
      (fun run => decide (run.2 = .ok (some fileLength))) = true := by decide +kernel
  obtain ⟨tr, a, hruns, ha⟩ := Prog.exists_runs_of_any hrun
  obtain rfl := of_decide_eq_true ha
  have hs : (machine fileProbe ["http://10.0.0.1:8080", "http://10.0.0.2:8080"]).Reachable _ :=
    .step (l := .reap) (.step (l := .die 0) (.step (l := .wake [1]) (.step (l := .finish 1 ⟨tr, _, hruns⟩)
      .init trivial rfl) trivial rfl) trivial rfl) trivial rfl
  obtain ⟨hrefines, -, hleft, -⟩ := headTasks_refine hs
  obtain ⟨run, hrun, -⟩ := hrefines (.ok (some fileLength)) rfl
  exact ⟨_, hs, ⟨run, hrun⟩, rfl, hleft⟩

end ProxySplit.HeadTasks
