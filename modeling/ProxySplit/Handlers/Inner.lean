import ProxySplit.Handlers.Effects
import ProxySplit.Streaming.Exclusion

namespace ProxySplit

open Lib

/-- The arguments of `handle_inner`, with what it reads of its `config`. -/
structure InnerArgs where
  url : Url
  reqHeaders : Headers
  body : Option Bytes
  method : String
  chunkSize : Int
  maxWorkers : Nat
  chunkRetries : Int
  chunkProxy : Bool
  pool : Option String
  pin : Option String
  weighted : Bool
  useStreaming : Bool
  prefetchAhead : Nat
  raceFirstChunk : Bool
  excludeWindow : Int
  exclusion : Exclusion
  streamBufferMb : Nat
  retryBudgetTotal : Int
  perProxyChunks : Bool
  chunkSizeMin : Int
  chunkSizeMax : Int
  prewarmUrl : String
  prewarmTopN : Int
  rid : String
  clientRange : Option String

structure Response where
  status : Nat
  contentType : String
  headers : Headers
  body : Bytes
  deriving DecidableEq

namespace Response

def ofText (status : Nat) (contentType text : String) (headers : Headers) : Response :=
  ⟨status, contentType ++ "; charset=utf-8", headers, text.toUTF8.toList⟩

/-- `dict(response.headers)`. -/
def dict (r : Response) : Headers := r.headers ++ [("Content-Type", r.contentType)]

end Response

/-- What `handle_inner` returns. -/
inductive Outcome
  | response (r : Response)
  | stream (plan : StreamPlan)
  deriving DecidableEq

def mediaType (ct : String) : String :=
  String.ofList (PyText.strip (ct.toList.takeWhile (· ≠ ';')))

namespace InnerArgs

def probe (args : InnerArgs) : ProbeArgs where
  url := args.url
  reqHeaders := args.reqHeaders
  pool := args.pool
  weighted := args.weighted
  headRetries := 3

def wholeJob (args : InnerArgs) (requestProxy : Option Url) : WholeJob where
  url := args.url
  reqHeaders := args.reqHeaders
  body := args.body
  method := args.method
  requestProxy := requestProxy
  retries := 3
  pool := args.pool
  weighted := args.weighted

def chunkJob (args : InnerArgs) (r : ChunkRange) (proxy : Url) : ChunkJob where
  url := args.url
  start := r.start
  stop := r.stop
  index := r.index
  proxyUrl := proxy
  chunkRetries := args.chunkRetries
  chunkProxy := args.chunkProxy
  pool := args.pool
  weighted := args.weighted
  retryBudget := true
  requestId := args.rid

def budget (args : InnerArgs) (numChunks : Nat) : Nat :=
  if 0 < args.retryBudgetTotal then args.retryBudgetTotal.toNat
  else numChunks * (max (args.chunkRetries - 1) 1).toNat

def plan (args : InnerArgs) (contentLength : Int) (ct : String) (window : Window)
    (ranges : List ChunkRange) (assigned : List Url) (raceProxy : Option Url) : StreamPlan where
  url := args.url
  ranges := ranges
  assigned := assigned
  numChunks := ranges.length
  contentLength := window.length
  ctClean := mediaType ct
  chunkRetries := args.chunkRetries
  chunkProxy := args.chunkProxy
  pool := args.pool
  weighted := args.weighted
  maxWorkers := args.maxWorkers
  prefetchAhead := args.prefetchAhead
  raceFirstChunk := args.raceFirstChunk && raceProxy.isSome
  raceProxy := raceProxy
  retryBudget := args.budget ranges.length
  requestId := args.rid
  isPartial := window.isPartial
  partialStart := window.start
  partialEnd := window.stop
  fullContentLength := contentLength
  maxBufferBytes := args.streamBufferMb * 1024 * 1024

end InnerArgs

def tryHeads (args : ProbeArgs) (proxies : List Url) : Request (Except PyExc (Option HeadInfo)) :=
  if proxies = [] then return .ok none
  else do
    let run : HeadsRun args proxies ← perform (.heads args proxies)
    return run.outcome

def getHeadInfo (args : ProbeArgs) : Request (Except PyExc HeadInfo) := do
  let proxies ← within .headPicks (probeProxies args args.headRetries.toNat [])
  match ← tryHeads args proxies with
  | .error exc => return .error exc
  | .ok (some info) => return .ok info
  | .ok none => within .rangeProbe (rangeProbe args)

def resolveContentInfo (args : ProbeArgs) : Request (Except PyExc HeadInfo) := do
  match ← getHeadInfo args with
  | .ok info => return .ok info
  | .error exc =>
    if exc.isException then return .ok ⟨none, false, "application/octet-stream"⟩
    else return .error exc

/-- The one upstream request that is made when nothing is split. -/
def fetchFallback (args : InnerArgs) (requestProxy : Option Url) (ct : String) :
    Request (Except PyExc Outcome) := do
  match ← within .whole (fetchWhole (args.wholeJob requestProxy)) with
  | .error exc => return .error exc
  | .ok res =>
    let ct := mediaType ((dictGet res.headers "Content-Type").getD ct)
    return .ok (.response ⟨res.status, ct, [], res.data⟩)

def HeadInfo.splittable (info : HeadInfo) : Option Int :=
  if info.supportsRanges then info.contentLength.filter (· ≠ 0) else none

/-- `sorted(available, key=STATS.score, reverse=True)[:prewarm_top_n]`. -/
def PoolView.top (v : PoolView) (pool : Option String) (n : Nat) : List Url :=
  let score := fun p => (v.scores.get? p).getD (1 / 2)
  ((v.available pool).mergeSort fun p q => decide (score q ≤ score p)).take n

def prewarm (args : InnerArgs) : Request Unit :=
  if args.prewarmUrl = "" then return ()
  else do
    let view : PoolView ← perform (.readPool args.pool)
    if view.available args.pool ≠ [] ∧ 0 < args.prewarmTopN then
      perform (.prewarm (view.top args.pool args.prewarmTopN.toNat) args.prewarmUrl)
    else return ()

/-- `repr` of the name of a pool. -/
def reprOf : Option String → String
  | none => "None"
  | some s =>
    let quote := if '\'' ∈ s.toList ∧ '"' ∉ s.toList then '"' else '\''
    String.ofList <| [quote] ++ s.toList.flatMap (fun c =>
      if c = quote ∨ c = '\\' then ['\\', c]
      else if c = '\n' then ['\\', 'n']
      else if c = '\r' then ['\\', 'r']
      else if c = '\t' then ['\\', 't']
      else [c]) ++ [quote]

def noProxies (args : InnerArgs) : Request (Except PyExc Outcome) := do
  let view : PoolView ← perform (.readPool args.pool)
  return .ok <| .response <| .ofText 503 "application/json"
    ("\x7b\"error\": \"no proxies available\", \"pool\": " ++ reprOf args.pool ++
      ", \"pool_size\": " ++ toString view.registry.all.length ++ "\x7d")
    [("Retry-After", "5")]

def pickRace (args : InnerArgs) (assigned : List Url) (numChunks : Nat) :
    Request (Option Url) :=
  if args.raceFirstChunk ∧ 1 ≤ numChunks then
    within .race (pickProxy args.pool assigned.head?.toFinset args.weighted)
  else return none

/-- `chunks[cidx] = data` for every result, up to the first that is not a tuple. -/
def collect : List (Except PyExc ChunkResult) → Dict Nat Bytes → Except PyExc (Dict Nat Bytes)
  | [], chunks => .ok chunks
  | .error exc :: _, _ => .error exc
  | .ok res :: rest, chunks => collect rest (chunks.set res.index res.data)

/-- What follows `asyncio.gather`. -/
def assemble (args : InnerArgs) (contentLength : Int) (ct : String) (window : Window)
    (ranges : List ChunkRange) (results : List (Except PyExc ChunkResult)) :
    Except PyExc Outcome :=
  match collect results .empty with
  | .error exc =>
    if exc.isException then
      .ok <| .response <| .ofText 502 "text/plain" s!"Chunk failed: {exc.str}" []
    else .error (.other "cannot unpack non-iterable CancelledError object")
  | .ok chunks =>
    let actual := fun (r : ChunkRange) => (((chunks.get? r.index).getD []).length : Int)
    match ranges.find? fun r => actual r ≠ r.stop - r.start + 1 with
    | some r =>
      .ok <| .response <| .ofText 502 "text/plain" (s!"[{args.rid}] Chunk #{r.index} size mismatch: " ++
        s!"expected {r.stop - r.start + 1}, got {actual r}") []
    | none =>
      match (List.range ranges.length).mapM chunks.get? with
      | none => .error (.other "KeyError")
      | some parts =>
        let assembled := parts.flatten
        if (assembled.length : Int) ≠ window.length then
          .ok <| .response <| .ofText 502 "text/plain" (s!"[{args.rid}] Reassembly error: " ++
            s!"expected {window.length}, got {assembled.length}") []
        else
          .ok <| .response ⟨if window.isPartial then 206 else 200, mediaType ct,
            if window.isPartial then
              [StreamPlan.contentRange window.start window.stop contentLength] else [],
            assembled⟩

theorem assemble_ne_stream (args : InnerArgs) (contentLength : Int) (ct : String) (window : Window)
    (ranges : List ChunkRange) (results : List (Except PyExc ChunkResult)) (plan : StreamPlan) :
    assemble args contentLength ct window ranges results ≠ .ok (.stream plan) := by
  intro h
  unfold assemble at h
  split at h
  · split at h <;> cases h
  · dsimp only at h
    split at h
    · cases h
    · split at h
      · cases h
      · split at h <;> cases h

def gatherChunks (args : InnerArgs) (contentLength : Int) (ct : String) (window : Window)
    (ranges : List ChunkRange) (assigned : List Url) : Request (Except PyExc Outcome) :=
  match chunkJobs args.chunkJob ranges assigned with
  | .error exc => return .error exc
  | .ok jobs => do
    let run : GatherRun args.maxWorkers (args.budget ranges.length) jobs ← perform
      (.gather args.maxWorkers (args.budget ranges.length) jobs)
    if run.interrupted then return .error .cancelled
    else return assemble args contentLength ct window ranges run.results

def fetchChunks (args : InnerArgs) (contentLength : Int) (ct : String) (window : Window)
    (ranges : List ChunkRange) (assigned : List Url) : Request (Except PyExc Outcome) := do
  let raceProxy ← pickRace args assigned ranges.length
  if args.useStreaming then
    return .ok (.stream (args.plan contentLength ct window ranges assigned raceProxy))
  else gatherChunks args contentLength ct window ranges assigned

/-- A loop without an end. -/
def diverge {α : Type} : Request α := .perform .diverge nofun

/-- The chunk sizes of the proxies, where these are wanted. -/
def rebalance (args : InnerArgs) (window : Window) (ranges : List ChunkRange)
    (assigned : List Url) : Request (Option (List ChunkRange × List Url)) :=
  if args.perProxyChunks then do
    let sizes : Nat → Int ← perform
      (.chunkSizes assigned args.chunkSize args.chunkSizeMin args.chunkSizeMax)
    return applyPerProxyChunkSizes sizes ranges assigned window.start window.stop args.chunkSize
  else return some (ranges, assigned)

def splitWindow (args : InnerArgs) (contentLength : Int) (ct : String) (window : Window) :
    Request (Except PyExc Outcome) := do
  prewarm args
  match buildRanges args.chunkSize window.start window.stop with
  | none => diverge
  | some ranges =>
    let views : Nat → PoolView ← perform
      (.distribute ranges.length args.pool args.pin args.weighted args.excludeWindow)
    let assigned := PoolView.distributeProxies views ranges.length args.pool args.pin
      args.weighted args.excludeWindow
    if assigned = [] then noProxies args
    else
      match ← rebalance args window ranges assigned with
      | none => diverge
      | some (ranges, assigned) => fetchChunks args contentLength ct window ranges assigned

/-- `handle_inner` behind the probe. -/
def dispatch (args : InnerArgs) (requestProxy : Option Url) (info : HeadInfo) :
    Request (Except PyExc Outcome) :=
  match isExcluded args.exclusion args.url info.contentType with
  | .error exc => return .error exc
  | .ok true => fetchFallback args requestProxy info.contentType
  | .ok false =>
    match info.splittable with
    | none => fetchFallback args requestProxy info.contentType
    | some contentLength =>
      match selectWindow contentLength args.clientRange with
      | .error exc => return .error exc
      | .ok window => splitWindow args contentLength info.contentType window

def pickRequestProxy (args : InnerArgs) : Request (Option Url) :=
  match truthy args.pin with
  | some p => return some p
  | none =>
    if args.chunkProxy then return none
    else within .requestProxy (pickProxy args.pool ∅ args.weighted)

def handleInner (args : InnerArgs) : Request (Except PyExc Outcome) := do
  let requestProxy ← pickRequestProxy args
  match ← resolveContentInfo args.probe with
  | .error exc => return .error exc
  | .ok info => dispatch args requestProxy info

end ProxySplit
