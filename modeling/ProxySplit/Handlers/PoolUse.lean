import ProxySplit.Handlers.Upstream

namespace ProxySplit

open Lib Prog

/-- The proxies that were chosen for what is sent next, whether there was a choice at all, and
whether every request so far went through a proxy that had been chosen for it. -/
structure PoolUse where
  chosen : Finset Url
  asked : Bool
  kept : Bool

namespace PoolUse

def start : PoolUse := ⟨∅, false, true⟩

def pick (s : PoolUse) (p : Option Url) : PoolUse :=
  ⟨s.chosen ∪ p.toFinset, true, s.kept⟩

def send (s : PoolUse) (r : HttpRequest) : PoolUse :=
  { s with kept := s.kept && (r.via.toFinset ∩ s.chosen).Nonempty }

end PoolUse

/-- What `pick_proxy` returns, if the registry lists it as available for the pool. -/
def listedPick (pool pool' : Option String) (excludeSet : Finset Url) (weighted : Bool)
    (v : PoolView) : Option Url :=
  (v.pickProxy pool' excludeSet none weighted).filter fun p => p ∈ v.available pool

def poolUse (pool : Option String) : Monitor FetchEffect FetchAnswer PoolUse
  | s, .pickProxy pool' excludeSet weighted, v =>
    s.pick (listedPick pool pool' excludeSet weighted v)
  | s, .http r, _ => s.send r
  | s, _, _ => s

def tasksKeep (pool : Option String) (s : PoolUse) {α : Type} {n : Nat}
    {p : Fin n → Fetch (Except PyExc α)} (tasks : (i : Fin n) → Option (Task (p i))) : Bool :=
  ∀ i, (tasks i).all fun t => ((poolUse pool).after s t.trace).kept

def StreamRun.raceKeeps (pool : Option String) (s : PoolUse) {plan : StreamPlan}
    {jobs : List ChunkJob} (run : StreamRun plan jobs) : Bool :=
  match h : plan.raceJob with
  | some job => (run.raceTask job h).all fun t => ((poolUse pool).after s t.trace).kept
  | none => true

/-- The assigned proxies that the registry listed in one of the views of the distribution. -/
def listedOf (pool : Option String) (views : Nat → PoolView) (n : Nat) (assigned : List Url) :
    Finset Url :=
  assigned.toFinset.filter fun p => ∃ k ≤ n, p ∈ (views k).available pool

/-- The distribution chooses anew, for all that is sent after it. -/
def requestPoolUse (pool : Option String) : Monitor RequestEffect RequestAnswer PoolUse
  | s, .fetch _ e, x => poolUse pool s e x
  | s, .distribute n pool' pin weighted win, views =>
    ⟨listedOf pool views n (PoolView.distributeProxies views n pool' pin weighted win), true, s.kept⟩
  | s, .heads _ _, run => { s with kept := s.kept && tasksKeep pool s run.tasks }
  | s, .gather _ _ _, run => { s with kept := s.kept && tasksKeep pool s run.tasks }
  | s, .stream _ _, run =>
    { s with kept := s.kept && tasksKeep pool s run.tasks && run.raceKeeps pool s }
  | s, _, _ => s

def Reply.isError : Reply → Bool
  | .response r => 400 ≤ r.status
  | .streamed _ => false
  | .raised _ => true

/-- Every request of the run went through a proxy that the registry listed for the pool when it was
chosen, and where none was found the client got an error. -/
def PoolKept (pool : Option String) (tr : RequestTrace) (reply : Reply) : Prop :=
  let s := (requestPoolUse pool).after .start tr
  s.kept = true ∧ (s.asked = true → s.chosen = ∅ → reply.isError = true)

instance (pool : Option String) (tr : RequestTrace) (reply : Reply) :
    Decidable (PoolKept pool tr reply) := inferInstanceAs (Decidable (_ ∧ _))

def Part.sendsAnyway : Part → Bool
  | .whole | .revalidate => true
  | _ => false

/-- If this is a first pick of such a part, the registry lists a proxy for the pool. -/
def FindsProxy : (e : RequestEffect) → RequestAnswer e → Prop
  | .fetch part (.pickProxy pool excludeSet _), v =>
    part.sendsAnyway = true → excludeSet = ∅ → v.available pool ≠ []
  | _, _ => True

instance : (e : RequestEffect) → (x : RequestAnswer e) → Decidable (FindsProxy e x)
  | .fetch _ (.pickProxy _ _ _), _ => inferInstanceAs (Decidable (_ → _ → ¬ _))
  | .fetch _ (.allowRequest _), _ | .fetch _ .acquireRetrySlot, _ | .fetch _ (.acquireLimiter _), _
  | .fetch _ (.http _), _ | .fetch _ (.recordSuccess ..), _ | .fetch _ (.recordFailure _), _
  | .fetch _ (.recordChunk _), _ | .fetch _ (.invalidateSession _), _
  | .distribute .., _ | .heads .., _ | .readPool _, _ | .prewarm .., _ | .chunkSizes .., _
  | .gather .., _ | .stream .., _ | .diverge, _ | .readBody, _ | .deadline, _ | .cacheGet _, _
  | .cacheValidators _, _ | .cachePut .., _ | .diskGet _, _ | .diskPut .., _ =>
    inferInstanceAs (Decidable True)

def finds : Monitor RequestEffect RequestAnswer Bool := fun ok e x => ok && FindsProxy e x

theorem finds_after {ok : Bool} {tr : RequestTrace} :
    finds.after ok tr = true ↔ ok = true ∧ ∀ ev ∈ tr, FindsProxy ev.1 ev.2 := by
  induction tr generalizing ok with
  | nil => simp [Monitor.after]
  | cons ev tr ih => simp [Monitor.after, ih, finds, and_assoc]

def Lost (s : PoolUse × Bool) : Prop := s.1.kept = false ∧ s.2 = false

/-- Every request of the run that has a proxy is sent through it. -/
def SendsProxied (e : RequestEffect) (x : RequestAnswer e) : Prop := ∀ r ∈ upstream e x, r.Proxied

instance (e : RequestEffect) (x : RequestAnswer e) : Decidable (SendsProxied e x) :=
  inferInstanceAs (Decidable (∀ _ ∈ _, _))

def FetchProxied (e : FetchEffect) (_ : FetchAnswer e) : Prop := ∀ r ∈ (requestOf e).toList, r.Proxied

abbrev FetchSpec {α σ : Type} (m : Monitor FetchEffect FetchAnswer σ) (p : Fetch α) (Q : σ → α → Prop)
    (s : σ) : Prop := KeepsWith m FetchProxied (fun _ _ _ => True) p Q s

theorem fetchSpec_bind {α β σ : Type} {m : Monitor FetchEffect FetchAnswer σ} {p : Fetch α}
    {f : α → Fetch β} {Q : σ → β → Prop} {s : σ} :
    FetchSpec m (p >>= f) Q s ↔ FetchSpec m p (fun s a => FetchSpec m (f a) Q s) s := keepsWith_bind

theorem poolUse_kept {pool : Option String} {s : PoolUse} (h : s.kept = false)
    (e : FetchEffect) (x : FetchAnswer e) : (poolUse pool s e x).kept = false := by
  cases e <;> simp [poolUse, PoolUse.pick, PoolUse.send, h]

theorem lost_step {pool : Option String} {s : PoolUse × Bool} (e : RequestEffect)
    (x : RequestAnswer e) (h : Lost s) : Lost (((requestPoolUse pool).prod finds) s e x) := by
  refine ⟨?_, by simp [Monitor.prod, finds, h.2]⟩
  cases e with
  | fetch part e => exact poolUse_kept h.1 e x
  | _ => simp [Monitor.prod, requestPoolUse, h.1]

def PoolSpec (pool : Option String) {α : Type} (p : Request α) (Q : PoolUse → α → Prop)
    (s : PoolUse) : Prop :=
  KeepsWith ((requestPoolUse pool).prod finds) SendsProxied (fun _ _ _ => True) p
    (fun s a => Lost s ∨ s.1.kept = true ∧ s.2 = true ∧ Q s.1 a) (s, true)

section Tasks

variable {pool : Option String} {s : PoolUse}

theorem PoolUse.send_eq {r : HttpRequest} {p : Url} (hr : r.session = some p) (hp : p ∈ s.chosen)
    (h : r.Proxied) : s.send r = s := by
  have hvia := HttpRequest.via_of_proxied hr h
  have hmem : (r.via.toFinset ∩ s.chosen).Nonempty := ⟨p, by simp [hvia, hp]⟩
  rw [PoolUse.send, decide_eq_true hmem, Bool.and_true]

theorem poolUse_http (pool : Option String) {r : HttpRequest} {p : Url} (hr : r.session = some p)
    (hp : p ∈ s.chosen) {x : FetchAnswer (.http r)} (h : FetchProxied (.http r) x) :
    poolUse pool s (.http r) x = s := PoolUse.send_eq hr hp (h r (.head _))

theorem listedPick_self {excludeSet : Finset Url} {weighted : Bool} {v : PoolView} :
    listedPick pool pool excludeSet weighted v = v.pickProxy pool excludeSet none weighted := by
  unfold listedPick
  cases h : v.pickProxy pool excludeSet none weighted with
  | none => rfl
  | some p => simp [Option.filter, PoolView.mem_available_of_pickProxy h]

theorem fetchSpec_pickProxy {excludeSet : Finset Url} {weighted : Bool}
    {Q : PoolUse → Option Url → Prop} (h : ∀ p, Q (s.pick p) p) :
    FetchSpec (poolUse pool) (pickProxy pool excludeSet weighted) Q s := by
  simp only [pickProxy, fetchSpec_bind, keepsWith_call, true_and]
  intro v _
  simp only [poolUse, listedPick_self]
  exact h _

theorem PoolUse.mem_pick {p : Url} : p ∈ (s.pick (some p)).chosen :=
  Finset.mem_union_right _ (by simp)

theorem fetchSpec_pickOther {excludeSet : Finset Url} {weighted : Bool} {current : Url}
    {Q : PoolUse → Option Url → Prop} (hs : s.kept = true) (hcur : current ∈ s.chosen)
    (h : ∀ s' alt, s'.kept = true → alt.getD current ∈ s'.chosen → Q s' alt) :
    FetchSpec (poolUse pool) (pickOther pool excludeSet weighted) Q s := by
  rw [pickOther, fetchSpec_bind]
  apply fetchSpec_pickProxy
  intro p
  refine h (s.pick p) (truthy p) hs ?_
  cases hp : truthy p with
  | none => exact Finset.mem_union_left _ hcur
  | some q =>
    obtain ⟨rfl, -⟩ := truthy_eq_some hp
    exact PoolUse.mem_pick

theorem fetchSpec_checkBreaker {job : ChunkJob} (hpool : job.pool = pool) {current : Url}
    {Q : PoolUse → Url → Prop} (hs : s.kept = true) (hcur : current ∈ s.chosen)
    (h : ∀ s' cur, s'.kept = true → cur ∈ s'.chosen → Q s' cur) :
    FetchSpec (poolUse pool) (checkBreaker job current) Q s := by
  simp only [checkBreaker, fetchSpec_bind, keepsWith_call, true_and]
  intro v _
  split
  · exact h s current hs hcur
  · rw [fetchSpec_bind, hpool]
    exact fetchSpec_pickOther hs hcur fun s' alt => h s' _

theorem fetchSpec_takeRetrySlot {job : ChunkJob} {attempt : Nat}
    {Q : PoolUse → Except PyExc Unit → Prop} (h : ∀ r, Q s r) :
    FetchSpec (poolUse pool) (takeRetrySlot job attempt) Q s := by
  unfold takeRetrySlot
  split
  · simp only [fetchSpec_bind, keepsWith_call, true_and]
    intro r _
    split <;> exact h _
  · exact h _

theorem fetchSpec_getRange {job : ChunkJob} {current : Url}
    {Q : PoolUse → Except PyExc ChunkResult → Prop} (hcur : current ∈ s.chosen)
    (h : ∀ r, Q s r) : FetchSpec (poolUse pool) (getRange job current) Q s := by
  simp only [getRange, fetchSpec_bind, keepsWith_call, true_and]
  intro r hr
  rw [poolUse_http pool rfl hcur hr]
  split
  · exact h _
  · split
    · simp only [fetchSpec_bind, keepsWith_call, true_and]
      exact fun _ _ _ _ => h _
    · exact h _

theorem fetchSpec_recordChunkFailure {current : Url} {exc : PyExc} {Q : PoolUse → Unit → Prop}
    (h : Q s ()) : FetchSpec (poolUse pool) (recordChunkFailure current exc) Q s := by
  unfold recordChunkFailure
  split
  · simp only [fetchSpec_bind, keepsWith_call, true_and]
    exact fun _ _ _ _ => h
  · exact fun _ _ => ⟨trivial, h⟩

theorem fetchSpec_nextProxy {job : ChunkJob} (hpool : job.pool = pool) {current : Url} {left : Nat}
    {Q : PoolUse → Url → Prop} (hs : s.kept = true) (hcur : current ∈ s.chosen)
    (h : ∀ s' cur, s'.kept = true → cur ∈ s'.chosen → Q s' cur) :
    FetchSpec (poolUse pool) (nextProxy job current left) Q s := by
  unfold nextProxy
  split
  · rw [fetchSpec_bind, hpool]
    exact fetchSpec_pickOther hs hcur fun s' alt => h s' _
  · exact h s current hs hcur

theorem fetchSpec_fetchAttempts {job : ChunkJob} (hpool : job.pool = pool) {left attempt : Nat}
    {current : Url} {lastExc : PyExc} (hs : s.kept = true) (hcur : current ∈ s.chosen) :
    FetchSpec (poolUse pool) (fetchAttempts job left attempt current lastExc)
      (fun s _ => s.kept = true) s := by
  induction left generalizing attempt current lastExc s with
  | zero => exact hs
  | succ left ih =>
    rw [fetchAttempts, fetchSpec_bind]
    apply fetchSpec_checkBreaker hpool hs hcur
    intro s₁ cur hs₁ hcur₁
    rw [fetchSpec_bind]
    apply fetchSpec_takeRetrySlot
    intro slot
    split
    · exact hs₁
    simp only [fetchSpec_bind, keepsWith_call, true_and]
    intro limiter _
    split
    · exact hs₁
    rw [fetchSpec_bind]
    apply fetchSpec_getRange hcur₁
    intro res
    split
    · exact hs₁
    · split
      · rw [fetchSpec_bind]
        apply fetchSpec_recordChunkFailure
        rw [fetchSpec_bind]
        apply fetchSpec_nextProxy hpool hs₁ hcur₁
        exact fun s₂ next => ih
      · exact hs₁

theorem fetchSpec_tryHead {args : ProbeArgs} {proxy : Url} (hs : s.kept = true) (hp : proxy ∈ s.chosen) :
    FetchSpec (poolUse pool) (tryHead args proxy) (fun s _ => s.kept = true) s := by
  simp only [tryHead, fetchSpec_bind, keepsWith_call, true_and]
  intro r hr
  rw [poolUse_http pool rfl hp hr]
  -- what follows the `try` when it raised
  have hrest : ∀ exc : PyExc, FetchSpec (poolUse pool)
      (if exc.isException then do
        ask (.recordFailure (some proxy))
        return .ok none
      else Pure.pure (.error exc) : Fetch (Except PyExc (Option HeadInfo)))
      (fun s _ => s.kept = true) s := by
    intro exc
    split
    · exact fun _ _ => ⟨trivial, hs⟩
    · exact hs
  split
  · exact hrest _
  · split
    · exact hs
    · split
      · rw [fetchSpec_bind]
        exact hrest _
      · exact hs

theorem Task.kept {α : Type} {p : Fetch (Except PyExc α)} (t : Task p)
    (h : FetchSpec (poolUse pool) p (fun s _ => s.kept = true) s) (hsends : ∀ r ∈ t.requests, r.Proxied) :
    ((poolUse pool).after s t.trace).kept = true := by
  refine KeepsWith.run h t.runs fun ev hev r hr => hsends r ?_
  exact List.mem_filterMap.mpr ⟨ev, hev, Option.mem_toList.mp hr⟩

theorem tasksKeep_of_fetchSpec {α : Type} {n : Nat} {p : Fin n → Fetch (Except PyExc α)}
    {tasks : (i : Fin n) → Option (Task (p i))}
    (h : ∀ i, FetchSpec (poolUse pool) (p i) (fun s _ => s.kept = true) s)
    (hsends : ∀ r ∈ requestsOfAll tasks, r.Proxied) : tasksKeep pool s tasks = true := by
  apply decide_eq_true
  intro i
  cases ht : tasks i with
  | none => rfl
  | some t => exact t.kept (h i) fun r hr => hsends r (mem_requestsOfAll ht hr)

theorem tasksKeep_fetchChunk (hs : s.kept = true) {jobs : List ChunkJob}
    (hjobs : ∀ j ∈ jobs, j.pool = pool ∧ j.proxyUrl ∈ s.chosen)
    {tasks : (i : Fin jobs.length) → Option (Task (fetchChunk (jobs.get i)))}
    (hsends : ∀ r ∈ requestsOfAll tasks, r.Proxied) : tasksKeep pool s tasks = true := by
  refine tasksKeep_of_fetchSpec (fun i => ?_) hsends
  obtain ⟨hpool, hmem⟩ := hjobs _ (List.getElem_mem i.isLt)
  exact fetchSpec_fetchAttempts hpool hs hmem

theorem raceKeeps_of_mem (hs : s.kept = true) {plan : StreamPlan} {jobs : List ChunkJob}
    (hpool : plan.pool = pool) (hrace : ∀ p, truthy plan.raceProxy = some p → p ∈ s.chosen)
    {run : StreamRun plan jobs} (hsends : ∀ r ∈ run.raceRequests, r.Proxied) :
    run.raceKeeps pool s = true := by
  unfold StreamRun.raceKeeps
  split
  · next job hjob =>
    cases ht : run.raceTask job hjob with
    | none => rfl
    | some t =>
      have hproxy : job.pool = pool ∧ job.proxyUrl ∈ s.chosen := by
        obtain ⟨-, r, p, hp, rfl⟩ := StreamPlan.race_of_raceJob hjob
        exact ⟨hpool, hrace p hp⟩
      refine t.kept (fetchSpec_fetchAttempts hproxy.1 hs hproxy.2) fun r hr => hsends r ?_
      exact StreamRun.mem_raceRequests_iff.mpr ⟨job, hjob, t, ht, hr⟩
  · rfl

end Tasks

section Sent

variable {pool : Option String}

theorem PoolUse.kept_of_send {s : PoolUse} {r : HttpRequest} (h : (s.send r).kept = true) :
    s.kept = true ∧ r.Proxied := by
  simp only [PoolUse.send, Bool.and_eq_true, decide_eq_true_eq] at h
  refine ⟨h.1, HttpRequest.proxied_of_via ?_⟩
  obtain ⟨p, hp⟩ := h.2
  rw [Option.mem_toFinset.mp (Finset.mem_inter.mp hp).1]
  rfl

theorem kept_of_poolUse {s : PoolUse} {e : FetchEffect} {x : FetchAnswer e}
    (h : (poolUse pool s e x).kept = true) : s.kept = true ∧ FetchProxied e x := by
  cases e with
  | http r =>
    have hsend : (s.send r).kept = true := h
    obtain ⟨hkept, hr⟩ := PoolUse.kept_of_send hsend
    exact ⟨hkept, List.forall_mem_singleton.mpr hr⟩
  | _ => exact ⟨h, nofun⟩

theorem kept_of_after {s : PoolUse} {tr : FetchTrace} (h : ((poolUse pool).after s tr).kept = true) :
    s.kept = true ∧ ∀ r ∈ requestsIn tr, r.Proxied := by
  induction tr generalizing s with
  | nil => exact ⟨h, nofun⟩
  | cons ev tr ih =>
    obtain ⟨hstep, hrest⟩ := ih h
    obtain ⟨hkept, hfirst⟩ := kept_of_poolUse hstep
    refine ⟨hkept, fun r hr => ?_⟩
    obtain ⟨ev', hev, hreq⟩ := List.mem_filterMap.mp hr
    rcases List.mem_cons.mp hev with rfl | hev
    · exact hfirst r (Option.mem_toList.mpr hreq)
    · exact hrest r (List.mem_filterMap.mpr ⟨ev', hev, hreq⟩)

theorem proxied_of_tasksKeep {s : PoolUse} {α : Type} {n : Nat} {p : Fin n → Fetch (Except PyExc α)}
    {tasks : (i : Fin n) → Option (Task (p i))} (h : tasksKeep pool s tasks = true) :
    ∀ r ∈ requestsOfAll tasks, r.Proxied := by
  intro r hr
  obtain ⟨i, t, ht, hr⟩ := exists_of_mem_requestsOfAll hr
  have hi := of_decide_eq_true h i
  rw [ht] at hi
  exact (kept_of_after hi).2 r hr

theorem proxied_of_raceKeeps {s : PoolUse} {plan : StreamPlan} {jobs : List ChunkJob}
    {run : StreamRun plan jobs} (h : run.raceKeeps pool s = true) : ∀ r ∈ run.raceRequests, r.Proxied := by
  intro r hr
  obtain ⟨job, hjob, t, ht, hr⟩ := StreamRun.mem_raceRequests_iff.mp hr
  unfold StreamRun.raceKeeps at h
  split at h
  · next job' hjob' =>
    obtain rfl := Option.some.inj (hjob.symm.trans hjob')
    rw [ht] at h
    exact (kept_of_after h).2 r hr
  · next hnone =>
    rw [hnone] at hjob
    cases hjob

theorem proxied_of_kept {s : PoolUse} {e : RequestEffect} {x : RequestAnswer e}
    (h : (requestPoolUse pool s e x).kept = true) : s.kept = true ∧ SendsProxied e x := by
  cases e with
  | fetch part e => exact kept_of_poolUse h
  | heads | gather =>
    obtain ⟨hkept, htasks⟩ := Bool.and_eq_true_iff.mp h
    exact ⟨hkept, proxied_of_tasksKeep htasks⟩
  | stream =>
    obtain ⟨hboth, hrace⟩ := Bool.and_eq_true_iff.mp h
    obtain ⟨hkept, htasks⟩ := Bool.and_eq_true_iff.mp hboth
    refine ⟨hkept, fun r hr => ?_⟩
    rcases List.mem_append.mp hr with hr | hr
    · exact proxied_of_tasksKeep htasks r hr
    · exact proxied_of_raceKeeps hrace r hr
  | _ => exact ⟨h, nofun⟩

theorem sendsProxied_of_kept {s : PoolUse} {tr : RequestTrace}
    (h : ((requestPoolUse pool).after s tr).kept = true) :
    s.kept = true ∧ ∀ ev ∈ tr, SendsProxied ev.1 ev.2 := by
  induction tr generalizing s with
  | nil => exact ⟨h, List.forall_mem_nil _⟩
  | cons ev tr ih =>
    have hafter : ((requestPoolUse pool).after (requestPoolUse pool s ev.1 ev.2) tr).kept = true := h
    obtain ⟨hstep, hrest⟩ := ih hafter
    obtain ⟨hkept, hfirst⟩ := proxied_of_kept hstep
    exact ⟨hkept, List.forall_mem_cons.mpr ⟨hfirst, hrest⟩⟩

end Sent

section Spec

variable {pool : Option String} {α β : Type} {p : Request α} {Q : PoolUse → α → Prop} {s : PoolUse}

theorem PoolSpec.pure {a : α} (hs : s.kept = true) (h : Q s a) :
    PoolSpec pool (Pure.pure a) Q s := .inr ⟨hs, rfl, h⟩

theorem PoolSpec.bind {f : α → Request β} {R : PoolUse → β → Prop} (hp : PoolSpec pool p Q s)
    (hf : ∀ s a, s.kept = true → Q s a → PoolSpec pool (f a) R s) : PoolSpec pool (p >>= f) R s := by
  refine KeepsWith.bind_or (fun s e x h => ⟨trivial, lost_step e x h⟩) hp ?_
  rintro ⟨s, ok⟩ a ⟨hs, rfl, hQ⟩
  exact hf s a hs hQ

theorem PoolSpec.mono {R : PoolUse → α → Prop} (h : ∀ s a, Q s a → R s a)
    (hp : PoolSpec pool p Q s) : PoolSpec pool p R s := by
  refine KeepsWith.mono (fun s a => Or.imp_right ?_) hp
  rintro ⟨hs, hok, hQ⟩
  exact ⟨hs, hok, h _ _ hQ⟩

theorem PoolSpec.perform {e : RequestEffect} {Q : PoolUse → RequestAnswer e → Prop}
    (hfinds : ∀ x, FindsProxy e x)
    (h : ∀ x, SendsProxied e x → (requestPoolUse pool s e x).kept = true ∧ Q (requestPoolUse pool s e x) x) :
    PoolSpec pool (ProxySplit.perform e) Q s := by
  intro x hx
  refine ⟨trivial, .inr ⟨(h x hx).1, ?_, (h x hx).2⟩⟩
  simp [Monitor.prod, finds, hfinds x]

theorem PoolSpec.skip {e : RequestEffect} (hs : s.kept = true) (hfinds : ∀ x, FindsProxy e x)
    (hskip : ∀ x, SendsProxied e x → requestPoolUse pool s e x = s) :
    PoolSpec pool (ProxySplit.perform e) (fun s' _ => s' = s) s := by
  apply PoolSpec.perform hfinds
  intro x hx
  rw [hskip x hx]
  exact ⟨hs, rfl⟩

theorem PoolSpec.bind_skip {e : RequestEffect} {f : RequestAnswer e → Request β}
    {R : PoolUse → β → Prop} (hs : s.kept = true) (hfinds : ∀ x, FindsProxy e x)
    (hskip : ∀ x, SendsProxied e x → requestPoolUse pool s e x = s) (hf : ∀ x, PoolSpec pool (f x) R s) :
    PoolSpec pool (ProxySplit.perform e >>= f) R s := by
  refine .bind (.skip hs hfinds hskip) ?_
  rintro s' x - rfl
  exact hf x

theorem PoolSpec.within {part : Part} {p : Fetch α} (hpart : part.sendsAnyway = false)
    (h : FetchSpec (poolUse pool) p (fun s a => s.kept = true ∧ Q s a) s) :
    PoolSpec pool (ProxySplit.within part p) Q s := by
  have hfinds : ∀ s e x, ((requestPoolUse pool).prod finds) s (.fetch part e) x =
      ((poolUse pool).prod fun ok _ _ => ok) s e x := by
    intro s e x
    have hany : FindsProxy (.fetch part e) x := by
      cases e with
      | pickProxy => exact fun h => absurd h (by simp [hpart])
      | _ => trivial
    simp [Monitor.prod, requestPoolUse, finds, hany]
  have hkept : FetchSpec (poolUse pool) p
      (fun s a => Lost (s, true) ∨ s.kept = true ∧ true = true ∧ Q s a) s :=
    h.mono fun s a h => .inr ⟨h.1, rfl, h.2⟩
  exact keepsWith_within hfinds (fun _ _ h => h) (hkept.beside fun _ _ => rfl)

end Spec

section Probe

variable {pool : Option String} {s : PoolUse}

theorem fetchSpec_probeProxies {args : ProbeArgs} (hpool : args.pool = pool) {n : Nat} {picked : List Url}
    (hs : s.kept = true) (hpicked : ∀ p ∈ picked, p ∈ s.chosen) :
    FetchSpec (poolUse pool) (probeProxies args n picked) (fun s' proxies =>
      s'.kept = true ∧ s.chosen ⊆ s'.chosen ∧ ∀ p ∈ proxies, p ∈ s'.chosen) s := by
  induction n generalizing picked s with
  | zero => exact ⟨hs, Finset.Subset.refl _, hpicked⟩
  | succ n ih =>
    rw [probeProxies, fetchSpec_bind, hpool]
    apply fetchSpec_pickProxy
    intro pick
    have hgrow : s.chosen ⊆ (s.pick pick).chosen := Finset.subset_union_left
    split
    · exact ⟨hs, hgrow, fun p hp => hgrow (hpicked p hp)⟩
    · next p hp =>
      obtain ⟨rfl, -⟩ := truthy_eq_some hp
      refine KeepsWith.mono ?_ (ih (s := s.pick (some p)) hs ?_)
      · rintro s' proxies ⟨hs', hsub, hproxies⟩
        exact ⟨hs', hgrow.trans hsub, hproxies⟩
      · intro q hq
        rcases List.mem_append.mp hq with hq | hq
        · exact hgrow (hpicked q hq)
        · rw [List.mem_singleton.mp hq]
          exact PoolUse.mem_pick

theorem fetchSpec_rangeProbe {args : ProbeArgs} (hpool : args.pool = pool) (hs : s.kept = true) :
    FetchSpec (poolUse pool) (rangeProbe args) (fun s' _ => s'.kept = true ∧ s.chosen ⊆ s'.chosen) s := by
  simp only [rangeProbe, fetchSpec_bind, hpool]
  apply fetchSpec_pickProxy
  intro pick
  have hgrow : s.chosen ⊆ (s.pick pick).chosen := Finset.subset_union_left
  split
  · exact ⟨hs, hgrow⟩
  · next p hp =>
    obtain ⟨rfl, -⟩ := truthy_eq_some hp
    simp only [fetchSpec_bind, keepsWith_call, true_and]
    intro r hr
    rw [poolUse_http pool rfl PoolUse.mem_pick hr]
    split
    · exact ⟨hs, hgrow⟩
    · exact ⟨hs, hgrow⟩
    · split <;> exact ⟨hs, hgrow⟩

theorem poolSpec_tryHeads {args : ProbeArgs} {proxies : List Url} (hs : s.kept = true)
    (hproxies : ∀ p ∈ proxies, p ∈ s.chosen) :
    PoolSpec pool (tryHeads args proxies) (fun s' _ => s.chosen ⊆ s'.chosen) s := by
  unfold tryHeads
  split
  · exact .pure hs (Finset.Subset.refl _)
  · refine .bind (.perform (fun _ => trivial) fun run hsends => ?_) fun s' _ hs' h => .pure hs' h
    have hkeep : tasksKeep pool s run.tasks = true :=
      tasksKeep_of_fetchSpec (fun i => fetchSpec_tryHead hs (hproxies _ (List.getElem_mem i.isLt))) hsends
    have hstep : requestPoolUse pool s (.heads args proxies) run = s := by
      simp only [requestPoolUse, hkeep, Bool.and_true]
    rw [hstep]
    exact ⟨hs, Finset.Subset.refl _⟩

theorem poolSpec_getHeadInfo {args : ProbeArgs} (hpool : args.pool = pool) (hs : s.kept = true) :
    PoolSpec pool (getHeadInfo args) (fun s' _ => s.chosen ⊆ s'.chosen) s := by
  unfold getHeadInfo
  have hpicks : ∀ p ∈ ([] : List Url), p ∈ s.chosen := nofun
  refine .bind (.within rfl (fetchSpec_probeProxies hpool hs hpicks)) ?_
  rintro s₁ proxies hs₁ ⟨hsub, hproxies⟩
  refine .bind (poolSpec_tryHeads hs₁ hproxies) ?_
  intro s₂ r hs₂ hsub'
  split
  · exact .pure hs₂ (hsub.trans hsub')
  · exact .pure hs₂ (hsub.trans hsub')
  · refine .mono ?_ (.within rfl (fetchSpec_rangeProbe hpool hs₂))
    exact fun s₃ _ hsub'' => hsub.trans (hsub'.trans hsub'')

theorem poolSpec_resolveContentInfo {args : ProbeArgs} (hpool : args.pool = pool) (hs : s.kept = true) :
    PoolSpec pool (resolveContentInfo args) (fun s' _ => s.chosen ⊆ s'.chosen) s := by
  unfold resolveContentInfo
  refine .bind (poolSpec_getHeadInfo hpool hs) ?_
  intro s' r hs' hsub
  split
  · exact .pure hs' hsub
  · split
    · exact .pure hs' hsub
    · exact .pure hs' hsub

end Probe

section Whole

variable {pool : Option String} {s : PoolUse} {job : WholeJob} {α : Type}

abbrev partUse (part : Part) (pool : Option String) :
    Monitor FetchEffect FetchAnswer (PoolUse × Bool) :=
  fun s e x => ((requestPoolUse pool).prod finds) s (.fetch part e) x

theorem PoolSpec.of_partUse {part : Part} {p : Fetch α} {Q : PoolUse → α → Prop}
    (h : FetchSpec (partUse part pool) p
      (fun s a => Lost s ∨ s.1.kept = true ∧ s.2 = true ∧ Q s.1 a) (s, true)) :
    PoolSpec pool (ProxySplit.within part p) Q s :=
  keepsWith_within (fun _ _ _ => rfl) (fun _ _ h => h) h

theorem fetchSpec_firstPick {part : Part} (hpart : part.sendsAnyway = true) {weighted : Bool}
    {Q : PoolUse × Bool → Option Url → Prop} (hnone : Q (s.pick none, false) none)
    (hsome : ∀ p, Q (s.pick (some p), true) (some p)) :
    FetchSpec (partUse part pool) (pickProxy pool ∅ weighted) Q (s, true) := by
  simp only [pickProxy, fetchSpec_bind, keepsWith_call, true_and]
  intro v _
  change Q (s.pick (listedPick pool pool ∅ weighted v),
    true && decide (FindsProxy (.fetch part (.pickProxy pool ∅ weighted)) v))
      (v.pickProxy pool ∅ none weighted)
  rw [listedPick_self, Bool.true_and]
  cases hv : v.pickProxy pool ∅ none weighted with
  | none =>
    have hnot : ¬ FindsProxy (.fetch part (.pickProxy pool ∅ weighted)) v :=
      fun h => h hpart rfl (PoolView.pickProxy_eq_none.mp hv)
    rw [decide_eq_false hnot]
    exact hnone
  | some p =>
    have hfinds : FindsProxy (.fetch part (.pickProxy pool ∅ weighted)) v :=
      fun _ _ => List.ne_nil_of_mem (PoolView.mem_available_of_pickProxy hv)
    rw [decide_eq_true hfinds]
    exact hsome p

theorem fetchSpec_pickOther_part {part : Part} {excludeSet : Finset Url} (hex : excludeSet.Nonempty)
    {weighted : Bool} {current : Url} {Q : PoolUse × Bool → Option Url → Prop} (hs : s.kept = true)
    (hcur : current ∈ s.chosen)
    (h : ∀ s' alt, s'.kept = true → alt.getD current ∈ s'.chosen → Q (s', true) alt) :
    FetchSpec (partUse part pool) (pickOther pool excludeSet weighted) Q (s, true) := by
  have hother : FetchSpec (poolUse pool) (pickOther pool excludeSet weighted)
      (fun s' alt => Q (s', true) alt) s := fetchSpec_pickOther hs hcur h
  simp only [pickOther, pickProxy, fetchSpec_bind, keepsWith_call, true_and] at hother ⊢
  intro v hsends
  have hfinds : FindsProxy (.fetch part (.pickProxy pool excludeSet weighted)) v :=
    fun _ h => absurd h hex.ne_empty
  have hstep : partUse part pool (s, true) (.pickProxy pool excludeSet weighted) v =
      (poolUse pool s (.pickProxy pool excludeSet weighted) v, true) := by
    simp [Monitor.prod, requestPoolUse, finds, hfinds]
  rw [hstep]
  exact hother v hsends

theorem fetchSpec_checkBreakerWhole (hpool : job.pool = pool) {current : Url}
    {Q : PoolUse × Bool → Option Url → Prop} (hs : s.kept = true) (hcur : current ∈ s.chosen)
    (h : ∀ s' cur, s'.kept = true → cur ∈ s'.chosen → Q (s', true) (some cur)) :
    FetchSpec (partUse .whole pool) (checkBreakerWhole job (some current)) Q (s, true) := by
  unfold checkBreakerWhole
  split
  · exact h s current hs hcur
  · next p hp =>
    obtain ⟨hp, -⟩ := truthy_eq_some hp
    cases hp
    simp only [fetchSpec_bind, keepsWith_call, true_and]
    intro v _
    split
    · exact h s current hs hcur
    · rw [fetchSpec_bind, hpool]
      apply fetchSpec_pickOther_part (Finset.singleton_nonempty current) hs hcur
      intro s' alt hs' halt
      cases alt with
      | none => exact h s' current hs' halt
      | some p => exact h s' p hs' halt

theorem fetchSpec_nextProxyWhole (hpool : job.pool = pool) {current : Url} {left : Nat}
    {Q : PoolUse × Bool → Option Url → Prop} (hs : s.kept = true) (hcur : current ∈ s.chosen)
    (h : ∀ s' cur, s'.kept = true → cur ∈ s'.chosen → Q (s', true) (some cur)) :
    FetchSpec (partUse .whole pool) (nextProxyWhole job (some current) left) Q (s, true) := by
  unfold nextProxyWhole
  split
  · rw [fetchSpec_bind, hpool]
    apply fetchSpec_pickOther_part (by simp) hs hcur
    intro s' alt hs' halt
    cases alt with
    | none => exact h s' current hs' halt
    | some p => exact h s' p hs' halt
  · exact h s current hs hcur

theorem fetchSpec_requestWhole {current : Url} {Q : PoolUse × Bool → Except PyExc WholeResult → Prop}
    (hcur : current ∈ s.chosen) (h : ∀ r, Q (s, true) r) :
    FetchSpec (partUse .whole pool) (requestWhole job (some current)) Q (s, true) := by
  simp only [requestWhole, fetchSpec_bind, keepsWith_call, true_and]
  intro r hr
  have hstep : partUse .whole pool (s, true) (.http (job.request (some current))) r = (s, true) :=
    congrArg (fun s => (s, true)) (poolUse_http pool rfl hcur hr)
  rw [hstep]
  split
  · exact h _
  · simp only [fetchSpec_bind, keepsWith_call, true_and]
    exact fun _ _ => h _

theorem fetchSpec_wholeAttempts (hpool : job.pool = pool) {left : Nat} {current : Url}
    {lastExc : PyExc} (hs : s.kept = true) (hcur : current ∈ s.chosen) :
    FetchSpec (partUse .whole pool) (wholeAttempts job left (some current) lastExc)
      (fun s _ => s.1.kept = true ∧ s.2 = true ∧ s.1.chosen.Nonempty) (s, true) := by
  induction left generalizing current lastExc s with
  | zero => exact ⟨hs, rfl, current, hcur⟩
  | succ left ih =>
    rw [wholeAttempts, fetchSpec_bind]
    apply fetchSpec_checkBreakerWhole hpool hs hcur
    intro s₁ cur hs₁ hcur₁
    rw [fetchSpec_bind]
    apply fetchSpec_requestWhole hcur₁
    intro r
    split
    · exact ⟨hs₁, rfl, cur, hcur₁⟩
    split
    · simp only [fetchSpec_bind, keepsWith_call, true_and]
      intro _ _
      apply fetchSpec_nextProxyWhole hpool hs₁ hcur₁
      exact fun s₂ next hs₂ hnext => ih hs₂ hnext
    · exact ⟨hs₁, rfl, cur, hcur₁⟩

theorem lost_direct {part : Part} {r : HttpRequest} (hr : r.session = none)
    (x : FetchAnswer (.http r)) : Lost (partUse part pool (s, false) (.http r) x) := by
  constructor
  · simp [Monitor.prod, requestPoolUse, poolUse, PoolUse.send, HttpRequest.via_direct hr]
  · rfl

theorem fetchSpec_wholeAttempts_direct {left : Nat} {lastExc : PyExc} :
    FetchSpec (partUse .whole pool) (wholeAttempts job (left + 1) none lastExc) (fun s _ => Lost s)
      (s, false) := by
  rw [wholeAttempts]
  exact fun r _ => ⟨trivial, KeepsWith.invariant (fun _ _ _ h => ⟨trivial, lost_step _ _ h⟩) (lost_direct rfl r)⟩

theorem poolSpec_fetchWhole (hpool : job.pool = pool) (hretries : job.retries = 3) (hs : s.kept = true)
    (hproxy : ∀ p, truthy job.requestProxy = some p → p ∈ s.chosen) :
    PoolSpec pool (within .whole (fetchWhole job)) (fun s' _ => s'.chosen.Nonempty) s := by
  apply PoolSpec.of_partUse
  have hattempts : ∀ s' p, s'.kept = true → p ∈ s'.chosen → FetchSpec (partUse .whole pool)
      (wholeAttempts job job.retries.toNat (some p) (.runtimeError "no attempts"))
      (fun s _ => Lost s ∨ s.1.kept = true ∧ s.2 = true ∧ s.1.chosen.Nonempty) (s', true) :=
    fun s' p hs' hp => KeepsWith.mono (fun _ _ => .inr) (fetchSpec_wholeAttempts hpool hs' hp)
  rw [fetchWhole, fetchSpec_bind, firstProxy]
  cases hp : truthy job.requestProxy with
  | some p => exact hattempts s p hs (hproxy p hp)
  | none =>
    simp only
    rw [hpool]
    apply fetchSpec_firstPick rfl
    · rw [hretries]
      exact KeepsWith.mono (fun _ _ => .inl) fetchSpec_wholeAttempts_direct
    · exact fun p => hattempts _ p hs PoolUse.mem_pick

end Whole

end ProxySplit
