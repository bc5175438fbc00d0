import ProxySplit.SessionPool
import ProxySplit.Lib.Machine
import Mathlib.Data.Finset.Option

namespace ProxySplit

open Lib

/-- `SessionPool`.  A session is its place in `made`, which has the key that it was made for and its
connector; `closed` are those that have been closed, and `dropped` those that `invalidate_sync` has taken
out. -/
structure SessionPool where
  sessions : Dict String Nat
  made : List (String × Connector)
  closed : Finset Nat
  dropped : Finset Nat

namespace SessionPool

def empty : SessionPool := ⟨.empty, [], ∅, ∅⟩

/-- `proxy_url or "__direct__"`. -/
def keyOf (proxyUrl : Option Url) : String := (truthy proxyUrl).getD "__direct__"

def create (p : SessionPool) (proxyUrl : Option Url) : SessionPool :=
  { p with
    sessions := p.sessions.set (keyOf proxyUrl) p.made.length
    made := p.made ++ [(keyOf proxyUrl, makeConnector proxyUrl)] }

/-- `make_connector` goes through, where `accepts` says which urls `ProxyConnector.from_url` takes. -/
def connects (accepts : Url → Bool) (proxyUrl : Option Url) : Bool :=
  match makeConnector proxyUrl with
  | .socks url => accepts url
  | .tcp => true

/-- `get`, with the pool that it leaves behind; `none` is an exception of `make_connector`. -/
def get (accepts : Url → Bool) (p : SessionPool) (proxyUrl : Option Url) : Option (SessionPool × Nat) :=
  match (p.sessions.get? (keyOf proxyUrl)).filter (· ∉ p.closed) with
  | some n => some (p, n)
  | none => if connects accepts proxyUrl then some (p.create proxyUrl, p.made.length) else none

def invalidateSync (p : SessionPool) (proxyUrl : Option Url) : SessionPool :=
  { p with
    sessions := p.sessions.erase (keyOf proxyUrl)
    dropped := p.dropped ∪ (p.sessions.get? (keyOf proxyUrl)).toFinset }

/-- `invalidate`.  A session counts as closed as soon as `close` is called. -/
def invalidate (p : SessionPool) (proxyUrl : Option Url) : SessionPool :=
  { p with
    sessions := p.sessions.erase (keyOf proxyUrl)
    closed := p.closed ∪ (p.sessions.get? (keyOf proxyUrl)).toFinset }

inductive Label
  | get (proxyUrl : Option Url)
  | invalidateSync (proxyUrl : Option Url)
  | invalidate (proxyUrl : Option Url)
  | close (n : Nat)

def step (accepts : Url → Bool) (p : SessionPool) : Label → Option SessionPool
  | .get proxyUrl => some (((p.get accepts proxyUrl).map Prod.fst).getD p)
  | .invalidateSync proxyUrl => some (p.invalidateSync proxyUrl)
  | .invalidate proxyUrl => some (p.invalidate proxyUrl)
  | .close n => if n < p.made.length then some { p with closed := insert n p.closed } else none

def machine (accepts : Url → Bool) : Machine SessionPool Label := ⟨empty, step accepts⟩

/-- The label takes the session of the key out of the pool. -/
def Label.TakesOut (key : String) : Label → Prop
  | .invalidateSync proxyUrl | .invalidate proxyUrl => keyOf proxyUrl = key
  | _ => False

variable {accepts : Url → Bool} {p p' : SessionPool} {l : Label} {ls : List Label} {proxyUrl : Option Url}
  {key : String} {n m : Nat}

theorem makeConnector_keyOf (proxyUrl : Option Url) :
    makeConnector (some (keyOf proxyUrl)) = makeConnector proxyUrl := by
  unfold keyOf makeConnector
  cases h : truthy proxyUrl with
  | none => decide
  | some u =>
    have hu : truthy (some u) = some u := by
      cases proxyUrl with
      | none => cases h
      | some v =>
        have hv := h
        rw [truthy] at hv
        split at hv
        · cases hv
        · cases hv
          exact h
    rw [Option.getD_some, hu]

/-- What a step can do to the sessions: nothing, make one for a key whose session is not open, take one out
that is then dropped or closed, or close one from outside. -/
theorem step_cases (h : p.step accepts l = some p') :
    p' = p ∨
    (∃ proxyUrl, l = .get proxyUrl ∧ (∀ n, p.sessions.get? (keyOf proxyUrl) = some n → n ∈ p.closed) ∧
      p' = p.create proxyUrl) ∨
    (∃ proxyUrl, l.TakesOut (keyOf proxyUrl) ∧
      (p' = p.invalidateSync proxyUrl ∨ p' = p.invalidate proxyUrl)) ∨
    ∃ n < p.made.length, l = .close n ∧ p' = { p with closed := insert n p.closed } := by
  cases l with
  | get proxyUrl =>
    cases h
    unfold get
    split
    · exact .inl rfl
    · next hnone =>
      split
      · refine .inr (.inl ⟨proxyUrl, rfl, fun n hn => ?_, rfl⟩)
        by_contra hopen
        rw [hn, Option.filter_some, if_pos (decide_eq_true hopen)] at hnone
        cases hnone
      · exact .inl rfl
  | invalidateSync proxyUrl =>
    cases h
    exact .inr (.inr (.inl ⟨proxyUrl, rfl, .inl rfl⟩))
  | invalidate proxyUrl =>
    cases h
    exact .inr (.inr (.inl ⟨proxyUrl, rfl, .inr rfl⟩))
  | close n =>
    obtain ⟨hn, hp⟩ := Option.ite_none_right_eq_some.mp h
    cases hp
    exact .inr (.inr (.inr ⟨n, hn, rfl, rfl⟩))

structure Inv (p : SessionPool) : Prop where
  filed : ∀ key n, p.sessions.get? key = some n → p.made[n]? = some (key, makeConnector (some key))
  apart : ∀ key n, p.sessions.get? key = some n → n ∉ p.dropped
  accounted : ∀ n key conn, p.made[n]? = some (key, conn) →
    conn = makeConnector (some key) ∧ (p.sessions.get? key = some n ∨ n ∈ p.closed ∨ n ∈ p.dropped)
  dropped_lt : ∀ n ∈ p.dropped, n < p.made.length
  closed_lt : ∀ n ∈ p.closed, n < p.made.length

theorem Inv.lt_of_get? (h : Inv p) (hn : p.sessions.get? key = some n) : n < p.made.length :=
  (List.getElem?_eq_some_iff.mp (h.filed key n hn)).1

theorem inv_empty : Inv empty where
  filed := fun key n h => (by cases h)
  apart := fun key n h => (by cases h)
  accounted := fun n key conn h => (by cases h)
  dropped_lt := fun n h => (by cases h)
  closed_lt := fun n h => (by cases h)

theorem Inv.create (h : Inv p) (hclosed : ∀ n, p.sessions.get? (keyOf proxyUrl) = some n → n ∈ p.closed) :
    Inv (p.create proxyUrl) := by
  have hlength : (p.create proxyUrl).made.length = p.made.length + 1 := List.length_append
  constructor
  case filed =>
    intro key n hn
    rw [SessionPool.create, Dict.get?_set] at hn
    split at hn
    · next hkey =>
      cases hn
      rw [SessionPool.create, List.getElem?_concat_length, hkey, makeConnector_keyOf]
    · have hold := h.filed key n hn
      rw [SessionPool.create, List.getElem?_append_left (List.getElem?_eq_some_iff.mp hold).1]
      exact hold
  case apart =>
    intro key n hn hdropped
    rw [SessionPool.create, Dict.get?_set] at hn
    split at hn
    · cases hn
      exact lt_irrefl _ (h.dropped_lt _ hdropped)
    · exact h.apart key n hn hdropped
  case accounted =>
    intro n key conn hn
    rcases Nat.lt_or_ge n p.made.length with hlt | hge
    · rw [SessionPool.create, List.getElem?_append_left hlt] at hn
      obtain ⟨hconn, hwhere⟩ := h.accounted n key conn hn
      refine ⟨hconn, ?_⟩
      rcases hwhere with hpool | hgone
      · by_cases hkey : key = keyOf proxyUrl
        -- The session that the new one takes the place of is closed.
        · exact .inr (.inl (hclosed n (hkey ▸ hpool)))
        · left
          rw [SessionPool.create, Dict.get?_set, if_neg hkey]
          exact hpool
      · exact .inr hgone
    · have hlt : n < p.made.length + 1 := hlength ▸ (List.getElem?_eq_some_iff.mp hn).1
      have heq : n = p.made.length := Nat.le_antisymm (Nat.le_of_lt_succ hlt) hge
      rw [SessionPool.create, heq, List.getElem?_concat_length] at hn
      cases hn
      refine ⟨(makeConnector_keyOf proxyUrl).symm, .inl ?_⟩
      rw [SessionPool.create, Dict.get?_set, if_pos rfl, heq]
  case dropped_lt => exact fun n hn => hlength ▸ Nat.lt_succ_of_lt (h.dropped_lt n hn)
  case closed_lt => exact fun n hn => hlength ▸ Nat.lt_succ_of_lt (h.closed_lt n hn)

theorem Inv.takeOut (h : Inv p) {dropped closed : Finset Nat}
    (hsub : p.dropped ⊆ dropped ∧ p.closed ⊆ closed)
    (hdropped : ∀ n ∈ dropped, n ∈ p.dropped ∨ p.sessions.get? (keyOf proxyUrl) = some n)
    (hclosed : ∀ n ∈ closed, n ∈ p.closed ∨ p.sessions.get? (keyOf proxyUrl) = some n)
    (hgone : ∀ n, p.sessions.get? (keyOf proxyUrl) = some n → n ∈ closed ∨ n ∈ dropped) :
    Inv ⟨p.sessions.erase (keyOf proxyUrl), p.made, closed, dropped⟩ := by
  have hkept : ∀ {key n}, (p.sessions.erase (keyOf proxyUrl)).get? key = some n →
      key ≠ keyOf proxyUrl ∧ p.sessions.get? key = some n := by
    intro key n hn
    rw [Dict.get?_erase] at hn
    split at hn
    · cases hn
    · next hne => exact ⟨hne, hn⟩
  constructor
  case filed => exact fun key n hn => h.filed key n (hkept hn).2
  case apart =>
    intro key n hn hmem
    obtain ⟨hne, hpool⟩ := hkept hn
    rcases hdropped n hmem with hold | hsame
    · exact h.apart key n hpool hold
    · have hmade := (h.filed key n hpool).symm.trans (h.filed _ n hsame)
      rw [Option.some.injEq, Prod.mk.injEq] at hmade
      exact hne hmade.1
  case accounted =>
    intro n key conn hn
    obtain ⟨hconn, hwhere⟩ := h.accounted n key conn hn
    refine ⟨hconn, ?_⟩
    rcases hwhere with hpool | hwas | hwas
    · by_cases hkey : key = keyOf proxyUrl
      · exact .inr (hgone n (hkey ▸ hpool))
      · left
        rw [Dict.get?_erase, if_neg hkey]
        exact hpool
    · exact .inr (.inl (hsub.2 hwas))
    · exact .inr (.inr (hsub.1 hwas))
  case dropped_lt => exact fun n hn => (hdropped n hn).elim (h.dropped_lt n) h.lt_of_get?
  case closed_lt => exact fun n hn => (hclosed n hn).elim (h.closed_lt n) h.lt_of_get?

theorem mem_union_toFinset {old : Finset Nat} {o : Option Nat} :
    n ∈ old ∪ o.toFinset ↔ n ∈ old ∨ o = some n := by
  rw [Finset.mem_union, Option.mem_toFinset, Option.mem_def]

theorem Inv.close (h : Inv p) (hn : n < p.made.length) : Inv { p with closed := insert n p.closed } where
  filed := h.filed
  apart := h.apart
  accounted := fun m key conn hm => by
    obtain ⟨hconn, hwhere⟩ := h.accounted m key conn hm
    exact ⟨hconn, hwhere.imp_right (Or.imp_left Finset.mem_insert_of_mem)⟩
  dropped_lt := h.dropped_lt
  closed_lt := fun m hm => by
    rcases Finset.mem_insert.mp hm with rfl | hm
    · exact hn
    · exact h.closed_lt m hm

theorem Inv.step (h : Inv p) (hstep : p.step accepts l = some p') : Inv p' := by
  rcases step_cases hstep with rfl | ⟨proxyUrl, -, hclosed, rfl⟩ | ⟨proxyUrl, -, rfl | rfl⟩ | ⟨n, hn, -, rfl⟩
  · exact h
  · exact h.create hclosed
  · exact h.takeOut ⟨Finset.subset_union_left, Finset.Subset.refl _⟩ (fun n hn => mem_union_toFinset.mp hn)
      (fun n hn => .inl hn) fun n hn => .inr (mem_union_toFinset.mpr (.inr hn))
  · exact h.takeOut ⟨Finset.Subset.refl _, Finset.subset_union_left⟩ (fun n hn => .inl hn)
      (fun n hn => mem_union_toFinset.mp hn) fun n hn => .inl (mem_union_toFinset.mpr (.inr hn))
  · exact h.close hn

theorem inv_of_reachable (hs : (machine accepts).Reachable p) : Inv p :=
  hs.invariant inv_empty fun _ _ _ hI _ hstep => hI.step hstep

/-- Every session ever made has the connector of its key, and is filed under that key, closed, or dropped by
`invalidate_sync`; what is filed has not been dropped, and of each key at most one session is open besides
those that were dropped. -/
theorem ledger_of_reachable (hs : (machine accepts).Reachable p) :
    (∀ n key conn, p.made[n]? = some (key, conn) → conn = makeConnector (some key) ∧
      (p.sessions.get? key = some n ∨ n ∈ p.closed ∨ n ∈ p.dropped)) ∧
    (∀ key n, p.sessions.get? key = some n →
      p.made[n]? = some (key, makeConnector (some key)) ∧ n ∉ p.dropped) ∧
    ∀ n m key connₙ connₘ, p.made[n]? = some (key, connₙ) → p.made[m]? = some (key, connₘ) →
      n ∉ p.closed → n ∉ p.dropped → m ∉ p.closed → m ∉ p.dropped → n = m := by
  have h := inv_of_reachable hs
  refine ⟨h.accounted, fun key n hn => ⟨h.filed key n hn, h.apart key n hn⟩, ?_⟩
  intro n m key connₙ connₘ hn hm hnopen hndropped hmopen hmdropped
  have hnpool := (h.accounted n key connₙ hn).2.resolve_right (not_or.mpr ⟨hnopen, hndropped⟩)
  have hmpool := (h.accounted m key connₘ hm).2.resolve_right (not_or.mpr ⟨hmopen, hmdropped⟩)
  exact Option.some.inj (hnpool.symm.trans hmpool)

theorem second_session : ∃ p, (machine fun _ => true).Reachable p ∧ p.made.length = 2 ∧ 0 ∉ p.closed ∧
    ∀ key n, p.sessions.get? key = some n →
      p.made[n]? = some (key, makeConnector (some key)) ∧ n ∉ p.dropped := by
  obtain ⟨p, hs, hmade, hopen⟩ := Machine.exists_reachable (M := machine fun _ => true)
    (P := fun p => p.made.length = 2 ∧ 0 ∉ p.closed)
    [.get (some "socks5://10.0.0.1:1080"), .invalidateSync (some "socks5://10.0.0.1:1080"),
      .get (some "socks5://10.0.0.1:1080")] (by decide +kernel)
  exact ⟨p, hs, hmade, hopen, (ledger_of_reachable hs).2.1⟩

theorem closed_subset_of_step (h : p.step accepts l = some p') : p.closed ⊆ p'.closed := by
  rcases step_cases h with rfl | ⟨proxyUrl, -, -, rfl⟩ | ⟨proxyUrl, -, rfl | rfl⟩ | ⟨n, -, -, rfl⟩
  · exact Finset.Subset.refl _
  · exact Finset.Subset.refl _
  · exact Finset.Subset.refl _
  · exact Finset.subset_union_left
  · exact Finset.subset_insert n _

theorem closed_subset_of_run (h : (machine accepts).run p ls = some p') : p.closed ⊆ p'.closed :=
  Machine.run_invariant (I := fun q => p.closed ⊆ q.closed)
    (fun _ _ _ hsub hstep => hsub.trans (closed_subset_of_step hstep)) (Finset.Subset.refl _) h

theorem get?_of_step (hn : p.sessions.get? key = some n) (hopen : n ∉ p.closed) (hl : ¬ l.TakesOut key)
    (h : p.step accepts l = some p') : p'.sessions.get? key = some n := by
  rcases step_cases h with rfl | ⟨proxyUrl, -, hclosed, rfl⟩ | ⟨proxyUrl, htakes, hp'⟩ | ⟨m, -, -, rfl⟩
  · exact hn
  · rw [create, Dict.get?_set, if_neg]
    · exact hn
    · rintro rfl
      exact hopen (hclosed n hn)
  · have hne : key ≠ keyOf proxyUrl := by
      rintro rfl
      exact hl htakes
    rcases hp' with rfl | rfl
    · rw [invalidateSync, Dict.get?_erase, if_neg hne]
      exact hn
    · rw [invalidate, Dict.get?_erase, if_neg hne]
      exact hn
  · exact hn

theorem get?_of_run (hn : p.sessions.get? key = some n) (hls : ∀ l ∈ ls, ¬ l.TakesOut key)
    (h : (machine accepts).run p ls = some p') (hopen : n ∉ p'.closed) : p'.sessions.get? key = some n := by
  induction ls generalizing p with
  | nil =>
    cases h
    exact hn
  | cons l ls ih =>
    obtain ⟨q, hq, hrest⟩ := Option.bind_eq_some_iff.mp h
    have hstill : n ∉ p.closed := fun hmem => hopen
      (closed_subset_of_run hrest (closed_subset_of_step hq hmem))
    exact ih (get?_of_step hn hstill (hls l (.head _)) hq) (fun l hl => hls l (.tail _ hl)) hrest

def NewFrom (k : Nat) (key : String) (p : SessionPool) : Prop :=
  k ≤ p.made.length ∧ ∀ n, p.sessions.get? key = some n → k ≤ n

theorem NewFrom.step {k : Nat} (hnew : NewFrom k key p) (h : p.step accepts l = some p') :
    NewFrom k key p' := by
  obtain ⟨hk, hall⟩ := hnew
  rcases step_cases h with rfl | ⟨proxyUrl, -, -, rfl⟩ | ⟨proxyUrl, -, hp'⟩ | ⟨m, -, -, rfl⟩
  · exact ⟨hk, hall⟩
  · refine ⟨?_, fun n hn => ?_⟩
    · rw [create, List.length_append]
      exact Nat.le_add_right_of_le hk
    · rw [create, Dict.get?_set] at hn
      split at hn
      · cases hn
        exact hk
      · exact hall n hn
  · have herase : ∀ n, (p.sessions.erase (keyOf proxyUrl)).get? key = some n → k ≤ n := by
      intro n hn
      rw [Dict.get?_erase] at hn
      split at hn
      · cases hn
      · exact hall n hn
    rcases hp' with rfl | rfl
    · exact ⟨hk, herase⟩
    · exact ⟨hk, herase⟩
  · exact ⟨hk, hall⟩

theorem get_spec (h : Inv p) (hget : p.get accepts proxyUrl = some (p', n)) :
    n ∉ p'.closed ∧ n ∉ p'.dropped ∧ p'.made[n]? = some (keyOf proxyUrl, makeConnector proxyUrl) ∧
      p'.sessions.get? (keyOf proxyUrl) = some n ∧
      (n = p.made.length ∨ p.sessions.get? (keyOf proxyUrl) = some n) ∧
      ∀ m, p.sessions.get? (keyOf proxyUrl) = some m → m ∉ p.closed → n = m := by
  unfold get at hget
  split at hget
  · next m hm =>
    cases hget
    obtain ⟨hpool, hopen⟩ := Option.filter_eq_some_iff.mp hm
    refine ⟨of_decide_eq_true hopen, h.apart _ n hpool, ?_, hpool, .inr hpool, ?_⟩
    · rw [← makeConnector_keyOf]
      exact h.filed _ n hpool
    · exact fun m hm _ => Option.some.inj (hpool.symm.trans hm)
  · next hnone =>
    obtain ⟨-, hget⟩ := Option.ite_none_right_eq_some.mp hget
    cases hget
    refine ⟨fun hmem => lt_irrefl _ (h.closed_lt _ hmem), fun hmem => lt_irrefl _ (h.dropped_lt _ hmem),
      List.getElem?_concat_length, ?_, .inl rfl, fun m hm hopen => ?_⟩
    · rw [create, Dict.get?_set, if_pos rfl]
    · rw [hm, Option.filter_some, if_pos (decide_eq_true hopen)] at hnone
      cases hnone

/-- Whatever happens in between, `get` returns an open session made for the proxy: the one that was there
before, if it was not taken out and is still open, and one made since, if there was none. -/
theorem get_after_run (hs : (machine accepts).Reachable p) (hrun : (machine accepts).run p ls = some p')
    {q : SessionPool} (hget : p'.get accepts proxyUrl = some (q, n)) :
    n ∉ q.closed ∧ n ∉ q.dropped ∧ q.made[n]? = some (keyOf proxyUrl, makeConnector proxyUrl) ∧
      (∀ m, p.sessions.get? (keyOf proxyUrl) = some m → m ∉ p'.closed →
        (∀ l ∈ ls, ¬ l.TakesOut (keyOf proxyUrl)) → n = m) ∧
      (p.sessions.get? (keyOf proxyUrl) = none → p.made.length ≤ n) := by
  have h' : Inv p' := Machine.run_invariant (fun _ _ _ hI hstep => hI.step hstep) (inv_of_reachable hs) hrun
  obtain ⟨hopen, hdropped, hmade, -, hwhich, hsame⟩ := get_spec h' hget
  refine ⟨hopen, hdropped, hmade, fun m hm hmopen hls => ?_, fun hnone => ?_⟩
  · exact hsame m (get?_of_run hm hls hrun hmopen) hmopen
  · have hnew : NewFrom p.made.length (keyOf proxyUrl) p' :=
      Machine.run_invariant (fun _ _ _ hI hstep => hI.step hstep)
        ⟨le_rfl, fun n hn => by cases hnone.symm.trans hn⟩ hrun
    rcases hwhich with rfl | hpool
    · exact hnew.1
    · exact hnew.2 n hpool

theorem direct_session : ∃ p q : SessionPool, ∃ n, (machine fun _ => true).Reachable p ∧
    p.get (fun _ => true) none = some (q, n) ∧ p.closed = {0} ∧
    q.made[n]? = some ("__direct__", .tcp) ∧ n ∉ q.closed := by
  obtain ⟨p, hs, hget, hclosed⟩ := Machine.exists_reachable (M := machine fun _ => true)
    (P := fun p => (p.get (fun _ => true) none).isSome ∧ p.closed = {0})
    [.get (some "http://10.0.0.1:8080"), .get (some "__direct__"), .invalidate (some "http://10.0.0.1:8080")]
    (by decide +kernel)
  obtain ⟨⟨q, n⟩, hq⟩ := Option.isSome_iff_exists.mp hget
  have hrun : (machine fun _ => true).run p [] = some p := rfl
  obtain ⟨hopen, -, hmade, -⟩ := get_after_run hs hrun hq
  exact ⟨p, q, n, hs, hq, hclosed, hmade, hopen⟩

end SessionPool

end ProxySplit
