import ProxySplit.Fetchers.Effects

namespace ProxySplit

open Lib

/-- The arguments of one `fetch_chunk` call. -/
structure ChunkJob where
  url : Url
  start : Int
  stop : Int
  index : Nat
  proxyUrl : Url
  chunkRetries : Int
  chunkProxy : Bool
  pool : Option String
  weighted : Bool
  retryBudget : Bool
  requestId : String
  deriving DecidableEq

structure ChunkResult where
  index : Nat
  data : Bytes
  status : Nat
  proxy : Url
  deriving DecidableEq

namespace ChunkJob

def expectedSize (job : ChunkJob) : Int := job.stop - job.start + 1

def request (job : ChunkJob) (current : Url) : HttpRequest where
  session := some current
  method := "GET"
  url := job.url
  headers := [("Range", s!"bytes={job.start}-{job.stop}")]
  body := none

def sizeMismatch (job : ChunkJob) (resp : HttpResponse) : PyExc :=
  .valueError (s!"Chunk #{job.index} size mismatch: expected {job.expectedSize}, " ++
    s!"got {resp.body.length} (status={resp.status})")

end ChunkJob

/-- The breaker check at the top of an attempt.  A proxy picked in place of a denied one is not
checked in its turn. -/
def checkBreaker (job : ChunkJob) (current : Url) : Fetch Url := do
  let view : AllowView ← ask (.allowRequest current)
  if view.answer current then return current
  let alt ← pickOther job.pool {current} job.weighted
  return alt.getD current

def takeRetrySlot (job : ChunkJob) (attempt : Nat) : Fetch (Except PyExc Unit) :=
  if job.retryBudget ∧ 1 < attempt then do
    match ← ask .acquireRetrySlot with
    | .ok () => return .ok ()
    | .error .timeout => return .error <| .runtimeError <|
        s!"[{job.requestId}] Chunk #{job.index} timed out waiting for retry budget " ++
          "(all ? retry slots are in use)"
    | .error .cancelled => return .error .cancelled
    | .error exc => return .error <| .runtimeError <|
        s!"[{job.requestId}] Chunk #{job.index} retry budget error: {exc.str}"
  else return .ok ()

/-- The body of the `try`: one ranged GET, its size check, and the bookkeeping of a success. -/
def getRange (job : ChunkJob) (current : Url) : Fetch (Except PyExc ChunkResult) := do
  match ← ask (.http (job.request current)) with
  | .error exc => return .error exc
  | .ok resp =>
    if (resp.body.length : Int) = job.expectedSize then
      ask (.recordSuccess (some current) resp.body.length resp.latencyMs)
      ask (.recordChunk resp.latencyMs)
      return .ok ⟨job.index, resp.body, resp.status, current⟩
    else return .error (job.sizeMismatch resp)

/-- The two `except` branches. -/
def recordChunkFailure (current : Url) : PyExc → Fetch Unit
  | .clientConnector _ => do
    ask (.invalidateSession (some current))
    ask (.recordFailure (some current))
  | _ => ask (.recordFailure (some current))

def nextProxy (job : ChunkJob) (current : Url) (left : Nat) : Fetch Url :=
  if 0 < left ∧ job.chunkProxy then do
    let nxt ← pickOther job.pool {current} job.weighted
    return nxt.getD current
  else return current

/-- The attempts that are left, the next of which has the number `attempt`. -/
def fetchAttempts (job : ChunkJob) :
    (left attempt : Nat) → (current : Url) → (lastExc : PyExc) → Fetch (Except PyExc ChunkResult)
  | 0, _, _, lastExc => return .error lastExc
  | left + 1, attempt, current, _ => do
    let current ← checkBreaker job current
    match ← takeRetrySlot job attempt with
    | .error exc => return .error exc
    | .ok () =>
    match ← ask (.acquireLimiter current) with
    | .error exc => return .error exc
    | .ok () =>
    match ← getRange job current with
    | .ok res => return .ok res
    | .error exc =>
      if exc.isException then
        recordChunkFailure current exc
        let current ← nextProxy job current left
        fetchAttempts job left (attempt + 1) current exc
      else return .error exc

def fetchChunk (job : ChunkJob) : Fetch (Except PyExc ChunkResult) :=
  fetchAttempts job job.chunkRetries.toNat 1 job.proxyUrl (.runtimeError "no attempts")

/-- What an attempt does apart from its slot, its limiter and its GET. -/
def Sideline : FetchEffect → Prop
  | .allowRequest _ | .pickProxy .. | .recordFailure _ | .invalidateSession _ => True
  | _ => False

section Attempts

open Prog

variable {rely : (e : FetchEffect) → FetchAnswer e → Prop} {job : ChunkJob} {current : Url}

abbrev Sidelines {α : Type} (rely : (e : FetchEffect) → FetchAnswer e → Prop) (p : Fetch α) : Prop :=
  Keeps rely (fun e _ => Sideline e) p fun _ => True

theorem sidelines_pickOther {pool : Option String} {excludeSet : Finset Url} {weighted : Bool} :
    Sidelines rely (pickOther pool excludeSet weighted) := fun _ _ => ⟨trivial, trivial⟩

theorem sidelines_checkBreaker : Sidelines rely (checkBreaker job current) := by
  intro view _
  refine ⟨trivial, ?_⟩
  change Keeps _ _ (if view.answer current then _ else _) _
  split
  · trivial
  · exact sidelines_pickOther.bind fun _ _ => trivial

theorem sidelines_recordChunkFailure {exc : PyExc} :
    Sidelines rely (recordChunkFailure current exc) := by
  unfold recordChunkFailure
  split
  · exact fun _ _ => ⟨trivial, fun _ _ => ⟨trivial, trivial⟩⟩
  · exact fun _ _ => ⟨trivial, trivial⟩

theorem sidelines_nextProxy {left : Nat} : Sidelines rely (nextProxy job current left) := by
  unfold nextProxy
  split
  · exact sidelines_pickOther.bind fun _ _ => trivial
  · trivial

theorem keepsWith_takeRetrySlot {σ : Type} {m : Monitor FetchEffect FetchAnswer σ}
    {good : σ → (e : FetchEffect) → FetchAnswer e → Prop} {Q : σ → Except PyExc Unit → Prop}
    {attempt : Nat} {s : σ} (hfree : ¬ (job.retryBudget ∧ 1 < attempt) → Q s (.ok ()))
    (hask : job.retryBudget ∧ 1 < attempt → ∀ answer, good s .acquireRetrySlot answer ∧
      (answer = .ok () → Q (m s .acquireRetrySlot answer) (.ok ())) ∧
        ∀ exc exc', answer = .error exc → Q (m s .acquireRetrySlot answer) (.error exc')) :
    KeepsWith m rely good (takeRetrySlot job attempt) Q s := by
  unfold takeRetrySlot
  split
  · next hlate =>
    intro answer _
    obtain ⟨hgood, hok, herror⟩ := hask hlate answer
    refine ⟨hgood, ?_⟩
    cases answer with
    | ok u => exact hok rfl
    | error exc => cases exc <;> exact herror _ _ rfl
  · next hearly => exact hfree hearly

/-- The rule for the attempts of a fetch: what `I` says before an attempt is left alone by the sidelines,
becomes `J` with the slot, and holds again before the next attempt. -/
theorem keepsWith_fetchAttempts {σ : Type} {m : Monitor FetchEffect FetchAnswer σ}
    {good : σ → (e : FetchEffect) → FetchAnswer e → Prop} {I J : Nat → Nat → σ → Prop}
    {Q : σ → Except PyExc ChunkResult → Prop}
    (hside : ∀ left attempt s e x, Sideline e → I left attempt s →
      good s e x ∧ I left attempt (m s e x))
    (hdone : ∀ attempt s exc, I 0 attempt s → Q s (.error exc))
    (hslot : ∀ left attempt s, I (left + 1) attempt s →
      KeepsWith m rely good (takeRetrySlot job attempt) (fun s r =>
        (r = .ok () → J left attempt s) ∧ ∀ exc, r = .error exc → Q s (.error exc)) s)
    (hlimiter : ∀ left attempt s p x, J left attempt s → rely (.acquireLimiter p) x →
      good s (.acquireLimiter p) x ∧ (x = .ok () → J left attempt (m s (.acquireLimiter p) x)) ∧
        ∀ exc, x = .error exc → Q (m s (.acquireLimiter p) x) (.error exc))
    (hget : ∀ left attempt s cur, J left attempt s →
      KeepsWith m rely good (getRange job cur) (fun s r => (∀ res, r = .ok res → Q s (.ok res)) ∧
        ∀ exc, r = .error exc →
          if exc.isException then I left (attempt + 1) s else Q s (.error exc)) s)
    {left attempt : Nat} {s : σ} (hs : I left attempt s) {lastExc : PyExc} :
    KeepsWith m rely good (fetchAttempts job left attempt current lastExc) Q s := by
  have hquiet : ∀ {α : Type} {p : Fetch α} {left attempt : Nat} {s : σ}, Sidelines rely p →
      I left attempt s → KeepsWith m rely good p (fun s' _ => I left attempt s') s :=
    fun hp hI => (hp.keepsWith (I := fun s' => I _ _ s')
      (fun s e x hI hside' => hside _ _ s e x hside' hI) hI).mono fun _ _ h => h.1
  induction left generalizing attempt current lastExc s with
  | zero => exact hdone _ _ _ hs
  | succ left ih =>
    rw [fetchAttempts]
    refine (hquiet sidelines_checkBreaker hs).bind fun s₁ cur hs₁ => ?_
    refine (hslot left attempt s₁ hs₁).bind fun s₂ slot hslot₂ => ?_
    cases slot with
    | error exc => exact hslot₂.2 exc rfl
    | ok _ =>
      intro limiter hrely
      obtain ⟨hgood, hok, herror⟩ := hlimiter left attempt s₂ cur limiter (hslot₂.1 rfl) hrely
      refine ⟨hgood, ?_⟩
      cases limiter with
      | error exc => exact herror exc rfl
      | ok _ =>
        refine (hget left attempt _ cur (hok rfl)).bind fun s₃ res hres => ?_
        cases res with
        | ok res => exact hres.1 res rfl
        | error exc =>
          have hnext := hres.2 exc rfl
          dsimp only
          split
          · next hexc =>
            rw [if_pos hexc] at hnext
            refine (hquiet sidelines_recordChunkFailure hnext).bind fun s₄ _ hs₄ => ?_
            exact (hquiet sidelines_nextProxy hs₄).bind fun s₅ next hs₅ => ih hs₅
          · next hexc =>
            rw [if_neg hexc] at hnext
            exact hnext

end Attempts

end ProxySplit
