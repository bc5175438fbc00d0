import ProxySplit.Fetchers.BreakerUse
import ProxySplit.Fetchers.RetryBudget

namespace ProxySplit

open Lib Prog

variable {job : ChunkJob} {current : Url}

def AsksFor (r : Nat) (n : Nat) (e : FetchEffect) (_ : FetchAnswer e) : Prop :=
  e = .acquireRetrySlot → n + 2 ≤ r

theorem asksFor_fetchAttempts {r n left attempt : Nat} {lastExc : PyExc} (hfirst : 1 ≤ attempt)
    (hr : attempt + left ≤ r + 1) (hn : n ≤ attempt - 2) :
    KeepsWith (Monitor.tally slots) (fun _ _ => True) (AsksFor r)
      (fetchAttempts job left attempt current lastExc) (fun _ _ => True) n := by
  refine keepsWith_fetchAttempts
    (I := fun left attempt n => 1 ≤ attempt ∧ attempt + left ≤ r + 1 ∧ n ≤ attempt - 2)
    (J := fun left attempt n => 1 ≤ attempt ∧ attempt + left < r + 1 ∧ n ≤ attempt - 1)
    ?_ (fun _ _ _ _ => trivial) ?_ ?_ ?_ ⟨hfirst, hr, hn⟩
  · intro left attempt n e x hside hs
    have hsame : Monitor.tally slots n e x = n := by
      cases e with
      | acquireRetrySlot => exact hside.elim
      | _ => rfl
    refine ⟨?_, hsame.symm ▸ hs⟩
    rintro rfl
    exact hside.elim
  · rintro left attempt n ⟨hfirst, hr, hn⟩
    refine keepsWith_takeRetrySlot (fun _ => ?_) fun hlate answer => ?_
    · exact ⟨fun _ => ⟨hfirst, by omega, by omega⟩, fun _ _ => trivial⟩
    · refine ⟨fun _ => by omega, ?_, fun _ _ _ => ⟨by rintro ⟨⟩, fun _ _ => trivial⟩⟩
      rintro rfl
      exact ⟨fun _ => ⟨hfirst, by omega, by simp only [Monitor.tally, slots]; omega⟩,
        fun _ _ => trivial⟩
  · exact fun left attempt n p x hs _ => ⟨by rintro ⟨⟩, fun _ => hs, fun _ _ => trivial⟩
  · rintro left attempt n cur ⟨hfirst, hr, hn⟩
    have hnext : ∀ out : Except PyExc ChunkResult, (∀ res, out = .ok res → True) ∧
        ∀ exc, out = .error exc → if exc.isException then
          1 ≤ attempt + 1 ∧ attempt + 1 + left ≤ r + 1 ∧ n ≤ attempt + 1 - 2 else True := by
      refine fun out => ⟨fun _ _ => trivial, fun exc _ => ?_⟩
      split
      · exact ⟨by omega, by omega, by omega⟩
      · trivial
    intro answer _
    refine ⟨by rintro ⟨⟩, ?_⟩
    cases answer with
    | error exc => exact hnext _
    | ok resp =>
      change KeepsWith _ _ _ (if (resp.body.length : Int) = job.expectedSize then _ else _) _ n
      split
      · exact fun _ _ => ⟨by rintro ⟨⟩, fun _ _ => ⟨by rintro ⟨⟩, hnext _⟩⟩
      · exact hnext _

theorem total_slots_of_asksFor {r n : Nat} {tr : FetchTrace}
    (h : (Monitor.tally slots).Always (AsksFor r) n tr) (hn : n ≤ r - 1) :
    n + total slots tr ≤ r - 1 := by
  induction tr generalizing n with
  | nil => exact hn
  | cons ev tr ih =>
    obtain ⟨e, x⟩ := ev
    obtain ⟨hasks, hrest⟩ := h
    rw [total, ← Nat.add_assoc]
    refine ih hrest ?_
    cases e with
    | acquireRetrySlot =>
      have hroom := hasks rfl
      have hone : slots .acquireRetrySlot x ≤ 1 := by
        unfold slots
        split <;> omega
      omega
    | _ => exact hn

theorem slots_le {tr : FetchTrace} {q : Fetch (Except PyExc ChunkResult)}
    (hs : Steps (fetchChunk job) tr q) : total slots tr ≤ job.chunkRetries.toNat - 1 ∧
      ∀ k, q = .perform .acquireRetrySlot k → total slots tr + 2 ≤ job.chunkRetries.toNat := by
  have hkeeps : KeepsWith (Monitor.tally slots) (fun _ _ => True) (AsksFor job.chunkRetries.toNat)
      (fetchChunk job) (fun _ _ => True) 0 :=
    asksFor_fetchAttempts le_rfl (Nat.add_comm 1 _).le (Nat.zero_le _)
  constructor
  · have hle := total_slots_of_asksFor (hkeeps.always hs fun _ _ => trivial) (Nat.zero_le _)
    rwa [Nat.zero_add] at hle
  · rintro k rfl
    have hafter := hkeeps.steps hs fun _ _ => trivial
    rw [Monitor.after_tally, Nat.zero_add] at hafter
    exact (hafter (.ok ()) trivial).1 rfl

def Unhindered : (e : FetchEffect) → FetchAnswer e → Prop
  | .acquireLimiter _, x => x = .ok ()
  | .http _, x => x ≠ .error .cancelled
  | _, _ => True

def Granted (e : FetchEffect) (x : FetchAnswer e) : Prop := e = .acquireRetrySlot → slots e x = 1

abbrev Counts {α : Type} (p : Fetch α) (Q : Nat → α → Prop) (n : Nat) : Prop :=
  KeepsWith (Monitor.tally gets) (fun e x => Unhindered e x ∧ Granted e x) (fun _ _ _ => True) p Q n

theorem counts_takeRetrySlot {attempt n : Nat} :
    Counts (takeRetrySlot job attempt) (fun n' out => n' = n ∧ out = .ok ()) n := by
  unfold takeRetrySlot
  split
  · rintro answer ⟨-, hgranted⟩
    cases answer with
    | ok _ => exact ⟨trivial, rfl, rfl⟩
    | error exc => exact absurd (hgranted rfl) Nat.zero_ne_one
  · exact ⟨rfl, rfl⟩

theorem counts_getRange {n : Nat} : Counts (getRange job current) (fun n' out => n' = n + 1 ∧
    ∀ exc, out = .error exc → exc.isException = true) n := by
  intro answer hanswer
  refine ⟨trivial, ?_⟩
  cases answer with
  | error exc =>
    refine ⟨rfl, ?_⟩
    rintro _ ⟨⟩
    cases exc with
    | cancelled => exact absurd rfl hanswer.1
    | _ => rfl
  | ok resp =>
    change Counts (if (resp.body.length : Int) = job.expectedSize then _ else _) _ (n + 1)
    split
    · exact fun _ _ => ⟨trivial, fun _ _ => ⟨trivial, rfl, nofun⟩⟩
    · refine ⟨rfl, ?_⟩
      rintro _ ⟨⟩
      rfl

theorem gets_of_failure {tr : FetchTrace} {exc : PyExc}
    (hs : Steps (fetchChunk job) tr (.pure (.error exc)))
    (h : ∀ ev ∈ tr, Unhindered ev.1 ev.2 ∧ Granted ev.1 ev.2) :
    total gets tr = job.chunkRetries.toNat := by
  have hkeeps : Counts (fetchChunk job)
      (fun n out => ∀ exc, out = .error exc → n = job.chunkRetries.toNat) 0 := by
    refine keepsWith_fetchAttempts (I := fun left _ n => n + left = job.chunkRetries.toNat)
      (J := fun left _ n => n + 1 + left = job.chunkRetries.toNat) ?_ ?_ ?_ ?_ ?_ (Nat.zero_add _)
    · intro left attempt n e x hside hn
      cases e with
      | http => exact hside.elim
      | _ => exact ⟨trivial, hn⟩
    · exact fun attempt n _ hn _ _ => hn
    · intro left attempt n hn
      refine counts_takeRetrySlot.mono ?_
      rintro n' _ ⟨rfl, rfl⟩
      exact ⟨fun _ => by omega, nofun⟩
    · rintro left attempt n p x hn ⟨rfl, -⟩
      exact ⟨trivial, fun _ => hn, nofun⟩
    · intro left attempt n cur hn
      refine counts_getRange.mono ?_
      rintro n' out ⟨rfl, hexc⟩
      refine ⟨fun res hres exc herror => ?_, fun exc herror => ?_⟩
      · cases herror
      · rw [if_pos (hexc exc herror)]
        exact hn
  have hafter := hkeeps.steps hs h
  rw [Monitor.after_tally, Nat.zero_add] at hafter
  exact hafter exc rfl

def Draws {α : Type} (p : Fetch α) (n : Nat) (q : Fetch α) : Prop :=
  ∃ tr, Steps p tr q ∧ total slots tr = n ∧ ∀ ev ∈ tr, Granted ev.1 ev.2

namespace Draws

variable {α β : Type} {p q r : Fetch α} {n m : Nat}

theorem refl : Draws p 0 p := ⟨[], .refl, rfl, fun _ hev => absurd hev List.not_mem_nil⟩

theorem trans (h : Draws p n q) (h' : Draws q m r) : Draws p (n + m) r := by
  obtain ⟨tr, hs, hn, hall⟩ := h
  obtain ⟨tr', hs', hm, hall'⟩ := h'
  refine ⟨tr ++ tr', hs.trans hs', by rw [total_append, hn, hm], ?_⟩
  exact fun ev hev => (List.mem_append.mp hev).elim (hall ev) (hall' ev)

theorem bind {f : α → Fetch β} {a : α} {q : Fetch β} (h : Draws p n (.pure a))
    (h' : Draws (f a) m q) : Draws (p >>= f) (n + m) q := by
  obtain ⟨tr, hs, hn, hall⟩ := h
  exact trans ⟨tr, hs.bind f, hn, hall⟩ h'

theorem perform {e : FetchEffect} {k : FetchAnswer e → Fetch α} (x : FetchAnswer e)
    (he : e ≠ .acquireRetrySlot) (h : Draws (k x) n q) : Draws (.perform e k) n q := by
  obtain ⟨tr, hs, hn, hall⟩ := h
  refine ⟨_, .perform (x := x) hs, ?_, List.forall_mem_cons.mpr ⟨fun h => absurd h he, hall⟩⟩
  have hnone : slots e x = 0 := by
    cases e with
    | acquireRetrySlot => exact absurd rfl he
    | _ => rfl
  rw [total, hnone, Nat.zero_add, hn]

theorem slot {k : FetchAnswer .acquireRetrySlot → Fetch α} (h : Draws (k (.ok ())) n q) :
    Draws (.perform .acquireRetrySlot k) (1 + n) q := by
  obtain ⟨tr, hs, hn, hall⟩ := h
  refine ⟨_, .perform (x := .ok ()) hs, ?_, List.forall_mem_cons.mpr ⟨fun _ => rfl, hall⟩⟩
  rw [total, hn]
  rfl

end Draws

theorem draws_checkBreaker : Draws (checkBreaker job current) 0 (.pure current) :=
  .perform (answering (.new 1 60 3600) [] (.allowRequest current)) nofun .refl

theorem draws_takeRetrySlot (hbudget : job.retryBudget = true) {attempt : Nat} :
    Draws (takeRetrySlot job attempt) (if 1 < attempt then 1 else 0) (.pure (.ok ())) := by
  unfold takeRetrySlot
  by_cases hlate : 1 < attempt
  · simp only [hbudget, hlate, and_self, if_true]
    exact .slot .refl
  · simp only [hlate, and_false, if_false]
    exact .refl

theorem draws_nextProxy (job : ChunkJob) (current : Url) (left : Nat) :
    ∃ p, Draws (nextProxy job current left) 0 (.pure p) := by
  unfold nextProxy
  split
  · exact ⟨_, .perform (answering (.new 1 60 3600) [] (.pickProxy job.pool {current} job.weighted)) nofun
      .refl⟩
  · exact ⟨_, .refl⟩

theorem draws_getRange (job : ChunkJob) (current : Url) : ∃ out, Draws (getRange job current) 0 (.pure out) ∧
    ((∃ resp, out = .error (job.sizeMismatch resp)) ∨ ∃ res, out = .ok res) ∧
    (0 ≤ job.expectedSize → ∃ res, out = .ok res) := by
  let resp : HttpResponse := ⟨206, [], List.replicate job.expectedSize.toNat 0, 12⟩
  by_cases hlen : (resp.body.length : Int) = job.expectedSize
  · refine ⟨.ok ⟨job.index, resp.body, resp.status, current⟩, .perform (.ok resp) nofun ?_,
      .inr ⟨_, rfl⟩, fun _ => ⟨_, rfl⟩⟩
    change Draws (if (resp.body.length : Int) = job.expectedSize then _ else _) _ _
    rw [if_pos hlen]
    exact .perform () nofun (.perform () nofun .refl)
  · refine ⟨.error (job.sizeMismatch resp), .perform (.ok resp) nofun ?_, .inl ⟨_, rfl⟩, ?_⟩
    · change Draws (if (resp.body.length : Int) = job.expectedSize then _ else _) _ _
      rw [if_neg hlen]
      exact .refl
    · intro hsize
      refine absurd ?_ hlen
      simp only [resp, List.length_replicate]
      omega

def behindGet (job : ChunkJob) (left attempt : Nat) (current : Url) :
    Except PyExc ChunkResult → Fetch (Except PyExc ChunkResult)
  | .ok res => return .ok res
  | .error exc =>
    if exc.isException then do
      recordChunkFailure current exc
      let current ← nextProxy job current left
      fetchAttempts job left (attempt + 1) current exc
    else return .error exc

theorem draws_fetchAttempts (hbudget : job.retryBudget = true) {left attempt n : Nat}
    {lastExc : PyExc} {r : Except PyExc ChunkResult} {q : Fetch (Except PyExc ChunkResult)}
    (hget : Draws (getRange job current) 0 (.pure r))
    (h : Draws (behindGet job left attempt current r) n q) :
    Draws (fetchAttempts job (left + 1) attempt current lastExc)
      ((if 1 < attempt then 1 else 0) + n) q := by
  rw [fetchAttempts, ← Nat.zero_add ((if 1 < attempt then 1 else 0) + n)]
  refine draws_checkBreaker.bind ((draws_takeRetrySlot hbudget).bind (.perform (.ok ()) (by rintro ⟨⟩) ?_))
  rw [← Nat.zero_add n]
  exact hget.bind h

theorem draws_timeout (hbudget : job.retryBudget = true) (left attempt : Nat) (current : Url)
    (lastExc : PyExc) :
    ∃ p, Draws (fetchAttempts job (left + 1) attempt current lastExc) (if 1 < attempt then 1 else 0)
      (fetchAttempts job left (attempt + 1) p .timeout) := by
  obtain ⟨p, hnext⟩ := draws_nextProxy job current left
  have hget : Draws (getRange job current) 0 (.pure (.error .timeout)) :=
    .perform (.error .timeout) nofun .refl
  exact ⟨p, draws_fetchAttempts hbudget hget (.perform () nofun (hnext.bind .refl))⟩

theorem draws_run (hbudget : job.retryBudget = true) (left : Nat) {attempt : Nat}
    (hfirst : 1 ≤ attempt) (current : Url) (lastExc : PyExc) :
    ∃ out, Draws (fetchAttempts job (left + 1) attempt current lastExc)
      (if 1 < attempt then left + 1 else left) (.pure out) ∧
        (0 ≤ job.expectedSize → ∃ res, out = .ok res) := by
  induction left generalizing attempt current lastExc with
  | zero =>
    obtain ⟨out, hget, ⟨resp, rfl⟩ | ⟨res, rfl⟩, hsize⟩ :=
      draws_getRange job current
    · exact ⟨_, draws_fetchAttempts hbudget hget (.perform () nofun .refl), hsize⟩
    · exact ⟨_, draws_fetchAttempts hbudget hget .refl, hsize⟩
  | succ left ih =>
    obtain ⟨p, hattempt⟩ := draws_timeout hbudget (left + 1) attempt current lastExc
    obtain ⟨out, hrest, hsize⟩ := ih (Nat.le_succ_of_le hfirst) p .timeout
    refine ⟨out, ?_, hsize⟩
    have htotal : (if 1 < attempt then left + 1 + 1 else left + 1) =
        (if 1 < attempt then 1 else 0) + if 1 < attempt + 1 then left + 1 else left := by
      split <;> split <;> omega
    rw [htotal]
    exact hattempt.trans hrest

/-- A fetch may need a slot for each of its attempts but one before it has the chunk. -/
theorem draws_fetchChunk (hbudget : job.retryBudget = true) (hretries : 1 ≤ job.chunkRetries) :
    ∃ out, Draws (fetchChunk job) (job.chunkRetries.toNat - 1) (.pure out) ∧
      (0 ≤ job.expectedSize → ∃ res, out = .ok res) := by
  obtain ⟨left, hleft⟩ := Nat.exists_eq_succ_of_ne_zero (n := job.chunkRetries.toNat) (by omega)
  obtain ⟨out, hdraws, hsize⟩ := draws_run hbudget left le_rfl job.proxyUrl
    (.runtimeError "no attempts")
  refine ⟨out, ?_, hsize⟩
  rw [fetchChunk, hleft]
  exact hdraws

theorem takeRetrySlot_eq (hbudget : job.retryBudget = true) (attempt : Nat) (hlate : 1 < attempt) :
    ∃ k, takeRetrySlot job attempt = .perform .acquireRetrySlot k := by
  unfold takeRetrySlot
  simp only [hbudget, hlate, and_self, if_true]
  exact ⟨_, rfl⟩

theorem draws_ask (hbudget : job.retryBudget = true) (hretries : 2 ≤ job.chunkRetries) :
    ∃ k, Draws (fetchChunk job) 0 (.perform .acquireRetrySlot k) := by
  obtain ⟨left, hleft⟩ := Nat.exists_eq_add_of_le (m := 2) (n := job.chunkRetries.toNat) (by omega)
  obtain ⟨p, hattempt⟩ := draws_timeout hbudget (left + 1) 1 job.proxyUrl
    (.runtimeError "no attempts")
  have hask : ∃ k, Draws (fetchAttempts job (left + 1) 2 p .timeout) 0 (.perform .acquireRetrySlot k) := by
    obtain ⟨k, hslot⟩ := takeRetrySlot_eq hbudget 2 (by decide)
    simp only [fetchAttempts, hslot]
    exact ⟨_, draws_checkBreaker.bind .refl⟩
  obtain ⟨k, hask⟩ := hask
  refine ⟨k, ?_⟩
  have hcount : job.chunkRetries.toNat = left + 1 + 1 := by omega
  rw [fetchChunk, hcount]
  exact hattempt.trans hask

end ProxySplit
