import ProxySplit.Fetchers.Chunk
import ProxySplit.Lib.Budget

namespace ProxySplit

open Lib Prog

def gets : (e : FetchEffect) → FetchAnswer e → Nat
  | .http _, _ => 1
  | _, _ => 0

def slots : (e : FetchEffect) → FetchAnswer e → Nat
  | .acquireRetrySlot, .ok () => 1
  | _, _ => 0

/-- The fetches of the chunks of a request.  What they share is a semaphore that none of them releases:
a wait for a slot ends with one of those that are left, or with an error at any time. -/
def chunkFetches (jobs : List ChunkJob) (budget : Nat) :
    Machine (Crew (Fin jobs.length) FetchEffect FetchAnswer (Except PyExc ChunkResult))
      (Crew.Label (Fin jobs.length) FetchEffect FetchAnswer) :=
  Crew.machine (fun i => fetchChunk (jobs.get i)) slots budget

abbrev tallies : Monitor FetchEffect FetchAnswer (Nat × Nat) :=
  (Monitor.tally gets).prod (Monitor.tally slots)

def Frugal (r : Nat) (s : Nat × Nat) : Prop := s.1 ≤ s.2 + 1 ∧ s.1 ≤ r

abbrev Spends {α : Type} (r : Nat) (p : Fetch α) (Q : Nat × Nat → α → Prop) (s : Nat × Nat) : Prop :=
  KeepsWith tallies (fun _ _ => True) (fun s e x => Frugal r (tallies s e x)) p Q s

def Free (e : FetchEffect) (x : FetchAnswer e) : Prop := gets e x = 0 ∧ slots e x = 0

variable {r : Nat} {s : Nat × Nat} {job : ChunkJob}

theorem Frugal.spends_of_free {α : Type} {p : Fetch α} (hs : Frugal r s)
    (h : Keeps (fun _ _ => True) Free p fun _ => True) : Spends r p (fun s' _ => s' = s) s := by
  refine KeepsWith.mono (fun _ _ h => h.1) (h.keepsWith (I := fun s' => s' = s) ?_ rfl)
  rintro s' e x rfl ⟨hget, hslot⟩
  have hsame : tallies s' e x = s' := by simp [Monitor.prod, Monitor.tally, hget, hslot]
  rw [hsame]
  exact ⟨hs, rfl⟩

theorem spends_takeRetrySlot (hbudget : job.retryBudget = true) {attempt : Nat} (hs : Frugal r s) :
    Spends r (takeRetrySlot job attempt) (fun s' res => Frugal r s' ∧ s'.1 = s.1 ∧
      (res = .ok () → s'.2 = if 1 < attempt then s.2 + 1 else s.2)) s := by
  refine keepsWith_takeRetrySlot (fun hearly => ?_) fun hlate answer => ?_
  · have hfirst : ¬ 1 < attempt := fun hlt => hearly ⟨hbudget, hlt⟩
    exact ⟨hs, rfl, fun _ => (if_neg hfirst).symm⟩
  · have hnext : Frugal r (tallies s .acquireRetrySlot answer) := by
      constructor
      · exact Nat.le_trans hs.1 (Nat.add_le_add_right (Nat.le_add_right _ _) 1)
      · exact hs.2
    refine ⟨hnext, ?_, fun exc exc' _ => ⟨hnext, rfl, by rintro ⟨⟩⟩⟩
    rintro rfl
    exact ⟨hnext, rfl, fun _ => (if_pos hlate.2).symm⟩

theorem spends_getRange {current : Url} (hslot : s.1 ≤ s.2) (hleft : s.1 < r) :
    Spends r (getRange job current) (fun s' _ => s' = (s.1 + 1, s.2)) s := by
  have hnext : Frugal r (s.1 + 1, s.2) := ⟨Nat.succ_le_succ hslot, hleft⟩
  intro answer _
  refine ⟨hnext, ?_⟩
  cases answer with
  | error exc => rfl
  | ok resp =>
    change Spends r (if (resp.body.length : Int) = job.expectedSize then _ else _) _ (s.1 + 1, s.2)
    split
    · exact hnext.spends_of_free fun _ _ => ⟨⟨rfl, rfl⟩, fun _ _ => ⟨⟨rfl, rfl⟩, trivial⟩⟩
    · rfl

def Paid (r left attempt : Nat) (s : Nat × Nat) : Prop :=
  Frugal r s ∧ 1 ≤ attempt ∧ s.1 + left ≤ r ∧ s.1 ≤ if 1 < attempt then s.2 + 1 else s.2

theorem spends_fetchAttempts (hbudget : job.retryBudget = true) {left attempt : Nat} {current : Url}
    {lastExc : PyExc} (hs : Paid r left attempt s) :
    Spends r (fetchAttempts job left attempt current lastExc) (fun _ _ => True) s := by
  refine keepsWith_fetchAttempts (I := Paid r) (J := fun left attempt s =>
    Frugal r s ∧ 1 ≤ attempt ∧ s.1 + left < r ∧ s.1 ≤ s.2) ?_ (fun _ _ _ _ => trivial) ?_ ?_ ?_ hs
  · intro left attempt s e x hside hs
    have hsame : tallies s e x = s := by
      cases e with
      | http | acquireRetrySlot => exact hside.elim
      | _ => rfl
    rw [hsame]
    exact ⟨hs.1, hs⟩
  · rintro left attempt s ⟨hs, hfirst, hr, hpaid⟩
    refine (spends_takeRetrySlot hbudget hs).mono ?_
    rintro s₁ slot ⟨hs₁, hgets, hslots⟩
    refine ⟨fun hok => ⟨hs₁, hfirst, by omega, ?_⟩, fun _ _ => trivial⟩
    rw [hslots hok, hgets]
    exact hpaid
  · intro left attempt s p x hs _
    exact ⟨hs.1, fun _ => hs, fun _ _ => trivial⟩
  · rintro left attempt s cur ⟨hs, hfirst, hr, hpaid⟩
    refine (spends_getRange hpaid (by omega)).mono ?_
    rintro s₁ res rfl
    refine ⟨fun _ _ => trivial, fun exc _ => ?_⟩
    split
    · have hnext : Frugal r (s.1 + 1, s.2) := ⟨Nat.succ_le_succ hpaid, by dsimp only; omega⟩
      refine ⟨hnext, by omega, by dsimp only; omega, ?_⟩
      rw [if_pos (by omega)]
      exact hnext.1
    · trivial

theorem gets_le (hbudget : job.retryBudget = true) {tr : FetchTrace}
    {q : Fetch (Except PyExc ChunkResult)} (hs : Steps (fetchChunk job) tr q) :
    total gets tr ≤ 1 + total slots tr ∧ total gets tr ≤ job.chunkRetries.toNat := by
  have hkeeps : Spends job.chunkRetries.toNat (fetchChunk job) (fun _ _ => True) (0, 0) :=
    spends_fetchAttempts hbudget ⟨⟨Nat.zero_le _, Nat.zero_le _⟩, le_rfl, (Nat.zero_add _).le, Nat.zero_le _⟩
  have hafter : Frugal job.chunkRetries.toNat (tallies.after (0, 0) tr) :=
    (hkeeps.always hs fun _ _ => trivial).after ⟨Nat.zero_le _, Nat.zero_le _⟩
  rw [Monitor.after_prod, Monitor.after_tally, Monitor.after_tally, Nat.zero_add, Nat.zero_add]
    at hafter
  exact ⟨Nat.add_comm 1 _ ▸ hafter.1, hafter.2⟩

/-- All fetches together make a GET each and one for each slot of the budget, however they interleave. -/
theorem sum_gets_le {jobs : List ChunkJob} {budget : Nat}
    (hjobs : ∀ job ∈ jobs, job.retryBudget = true)
    {s : Crew (Fin jobs.length) FetchEffect FetchAnswer (Except PyExc ChunkResult)}
    (hs : (chunkFetches jobs budget).Reachable s) :
    ∑ i, total gets (s.trace i) ≤ jobs.length + budget := by
  have hone : ∀ (i : Fin jobs.length) tr q, Steps (fetchChunk (jobs.get i)) tr q →
      total gets tr ≤ 1 + total slots tr :=
    fun i tr q h => (gets_le (hjobs (jobs.get i) (List.get_mem _ _)) h).1
  calc ∑ i, total gets (s.trace i)
      ≤ ∑ _i : Fin jobs.length, 1 + budget := Crew.sum_total_le hone hs
    _ = jobs.length + budget := by simp

end ProxySplit
