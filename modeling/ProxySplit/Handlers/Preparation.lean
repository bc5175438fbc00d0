import ProxySplit.Handlers.Inner

namespace ProxySplit

open Lib Prog

/-- What `handle_inner` does besides fetching chunks. -/
def Preparing : (e : RequestEffect) → RequestAnswer e → Prop
  | .fetch part _, _ => part ≠ .revalidate
  | .heads .., _ | .readPool _, _ | .prewarm .., _ | .distribute .., _ | .chunkSizes .., _ => True
  | _, _ => False

variable {rely : (e : RequestEffect) → RequestAnswer e → Prop}

abbrev Prepares {α : Type} (rely : (e : RequestEffect) → RequestAnswer e → Prop) (p : Request α) : Prop :=
  Keeps rely Preparing p fun _ => True

theorem prepares_within {α : Type} {part : Part} {p : Fetch α} (h : part ≠ .revalidate) :
    Prepares rely (within part p) :=
  keeps_within.mpr ((keeps_of_forall fun _ => trivial).mono (fun _ _ h => h) (fun _ _ _ _ => h)
    fun _ h => h)

theorem prepares_perform {e : RequestEffect} (h : ∀ x, Preparing e x) : Prepares rely (perform e) :=
  fun x _ => ⟨h x, trivial⟩

theorem prepares_resolveContentInfo {args : ProbeArgs} : Prepares rely (resolveContentInfo args) := by
  have hheads : ∀ proxies, Prepares rely (tryHeads args proxies) := by
    intro proxies
    unfold tryHeads
    split
    · trivial
    · exact Keeps.bind (prepares_perform fun _ => trivial) fun _ _ => trivial
  have hinfo : Prepares rely (getHeadInfo args) := by
    unfold getHeadInfo
    refine (prepares_within (by decide)).bind fun proxies _ => (hheads proxies).bind fun r _ => ?_
    split
    · trivial
    · trivial
    · exact prepares_within (by decide)
  refine hinfo.bind fun r _ => ?_
  split
  · trivial
  · split
    · trivial
    · trivial

variable {args : InnerArgs}

theorem prepares_pickRequestProxy : Prepares rely (pickRequestProxy args) := by
  unfold pickRequestProxy
  split
  · trivial
  · split
    · trivial
    · exact prepares_within (by decide)

theorem prepares_prewarm : Prepares rely (prewarm args) := by
  unfold prewarm
  split
  · trivial
  · refine Keeps.bind (prepares_perform fun _ => trivial) fun view _ => ?_
    split
    · exact prepares_perform fun _ => trivial
    · trivial

theorem of_keeps_prewarm {good : (e : RequestEffect) → RequestAnswer e → Prop} {Q : Unit → Prop}
    (hread : ∀ view, rely (.readPool args.pool) view)
    (hwarm : ∀ proxies, rely (.prewarm proxies args.prewarmUrl) ())
    (h : Keeps rely good (prewarm args) Q) : Q () := by
  unfold prewarm at h
  split at h
  · exact h
  · simp only [keeps_bind, keeps_call] at h
    have hview := (h (PoolView.viewOf []) (hread _)).2
    split at hview
    · exact (hview () (hwarm _)).2
    · exact hview

theorem prepares_pickRace {assigned : List Url} {n : Nat} :
    Prepares rely (pickRace args assigned n) := by
  unfold pickRace
  split
  · exact prepares_within (by decide)
  · trivial

theorem keeps_rebalance {w : Window} {ranges : List ChunkRange} {assigned : List Url} :
    Keeps rely Preparing (rebalance args w ranges assigned) fun out => ∀ rs as, out = some (rs, as) →
      ∀ p ∈ as, p ∈ assigned := by
  unfold rebalance
  split
  · refine Keeps.bind (prepares_perform fun _ => trivial) fun sizes _ => ?_
    exact fun rs as => mem_of_applyPerProxyChunkSizes
  · intro rs as h
    cases h
    exact fun _ hp => hp

end ProxySplit
