import ProxySplit.Handlers.Assembly
import ProxySplit.Handlers.ChunkStart
import ProxySplit.Handlers.Delivery
import ProxySplit.Fetchers.BreakerUse

namespace ProxySplit

open Lib Prog

namespace InnerArgs

end InnerArgs

namespace GatherRun

variable {maxWorkers budget : Nat} {jobs : List ChunkJob}

def Succeeds (run : GatherRun maxWorkers budget jobs) (data : Nat → Bytes) : Prop :=
  run.interrupted = false ∧
    ∀ i t, run.tasks i = some t → ∃ res, t.result = .ok res ∧ res.data = data i

def Failed (run : GatherRun maxWorkers budget jobs) : Prop :=
  ∃ i t exc, run.tasks i = some t ∧ t.result = .error exc

end GatherRun

namespace StreamPlan

end StreamPlan

section Dispatch

variable {args : InnerArgs} {requestProxy : Option Url} {info : HeadInfo} {tr : RequestTrace}
  {out : Except PyExc Outcome}

def Chunkless (tr : RequestTrace) (out : Except PyExc Outcome) : Prop :=
  (∀ plan, out ≠ .ok (.stream plan)) ∧ ∀ ev ∈ tr, Preparing ev.1 ev.2

theorem Prepares.events {α : Type} {p : Request α} {a : α} (hp : Prepares (fun _ _ => True) p)
    (h : Runs p tr a) : ∀ ev ∈ tr, Preparing ev.1 ev.2 := (hp.run h fun _ _ => trivial).1

theorem Chunkless.append {tr₁ tr₂ : RequestTrace} (h₁ : ∀ ev ∈ tr₁, Preparing ev.1 ev.2)
    (h₂ : Chunkless tr₂ out) : Chunkless (tr₁ ++ tr₂) out :=
  ⟨h₂.1, fun ev hev => (List.mem_append.mp hev).elim (h₁ ev) (h₂.2 ev)⟩

end Dispatch

section Failure

variable {args : InnerArgs} {L : Int} {ct : String} {w : Window} {ranges : List ChunkRange}
  {maxWorkers budget : Nat} {jobs : List ChunkJob}

variable {plan : StreamPlan}

end Failure

section File

end File

end ProxySplit
