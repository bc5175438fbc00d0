import ProxySplit.Handlers.Inner

namespace ProxySplit

open Lib

/-- `RequestConfig`, with what `handle_request` reads of its `config` for itself. -/
structure RequestConfig where
  staticChunkSize : Int := 524288
  maxWorkers : Nat := 10
  chunkRetries : Int := 2
  chunkProxy : Bool := true
  weighted : Bool := true
  useStreaming : Bool := true
  prefetchAhead : Nat := 2
  raceFirstChunk : Bool := false
  excludeWindow : Int := 3
  retryBudgetTotal : Int := 0
  perProxyChunks : Bool := true
  chunkSizeMin : Int := 65536
  chunkSizeMax : Int := 4194304
  prewarmUrl : String := ""
  prewarmTopN : Int := 5
  exclusion : Exclusion := .none
  streamBufferMb : Nat := 64
  requestTimeout : ℚ := 0

structure ClientRequest where
  method : String
  url : Option String
  noCache : Option String
  pool : Option String
  headers : Headers
  body : Bytes
  deriving DecidableEq

namespace ClientRequest

def pin (req : ClientRequest) : Option String := getHeader req.headers "X-Proxy-Pin"

def clientRange (req : ClientRequest) : Option String := getHeader req.headers "Range"

def bypassesCache (req : ClientRequest) : Bool := req.noCache.getD "0" ∉ ["0", ""]

def readsBody (req : ClientRequest) : Bool := req.method ∈ ["POST", "PUT", "PATCH"]

end ClientRequest

inductive Reply
  | response (r : Response)
  | streamed (plan : StreamPlan)
  | raised (exc : PyExc)
  deriving DecidableEq

def innerArgs (cfg : RequestConfig) (req : ClientRequest) (url : Url) (rid : String)
    (chunkSize : Int) (body : Option Bytes) : InnerArgs where
  url := url
  reqHeaders := req.headers
  body := body
  method := req.method
  chunkSize := chunkSize
  maxWorkers := cfg.maxWorkers
  chunkRetries := cfg.chunkRetries
  chunkProxy := cfg.chunkProxy
  pool := req.pool
  pin := req.pin
  weighted := cfg.weighted
  useStreaming := cfg.useStreaming
  prefetchAhead := cfg.prefetchAhead
  raceFirstChunk := cfg.raceFirstChunk
  excludeWindow := cfg.excludeWindow
  exclusion := cfg.exclusion
  streamBufferMb := cfg.streamBufferMb
  retryBudgetTotal := cfg.retryBudgetTotal
  perProxyChunks := cfg.perProxyChunks
  chunkSizeMin := cfg.chunkSizeMin
  chunkSizeMax := cfg.chunkSizeMax
  prewarmUrl := cfg.prewarmUrl
  prewarmTopN := cfg.prewarmTopN
  rid := rid
  clientRange := req.clientRange

def cachedType (headers : Headers) : String :=
  mediaType ((dictGet headers "Content-Type").getD "application/octet-stream")

def fromCache (r : Cached) (tag rid : String) : Response :=
  ⟨r.status, cachedType r.headers, [("X-Cache", tag), ("X-Request-ID", rid)], r.body⟩

def condHeaders : Option (Option String × Option String) → Headers
  | none => []
  | some (etag, lastMod) =>
    ((truthy etag).map fun v => ("If-None-Match", v)).toList ++
      ((truthy lastMod).map fun v => ("If-Modified-Since", v)).toList

def revalidationGet (pool : Option String) (weighted : Bool) (url : Url) (headers : Headers) :
    Fetch (Except PyExc HttpResponse) := do
  let proxy ← pickProxy pool ∅ weighted
  ask (.http ⟨proxy, "GET", url, headers, none⟩)

def serveL1 (cfg : RequestConfig) (req : ClientRequest) (url : Url) (rid : String)
    (cached : Cached) : Request (Except PyExc Response) := do
  let validators : Option (Option String × Option String) ← perform (.cacheValidators url)
  let headers := condHeaders validators
  if headers = [] then return .ok (fromCache cached "HIT-L1" rid)
  else
    match ← within .revalidate (revalidationGet req.pool cfg.weighted url headers) with
    | .error exc =>
      if exc.isException then return .ok (fromCache cached "HIT-L1" rid) else return .error exc
    | .ok resp =>
      if resp.status = 304 then return .ok (fromCache cached "HIT-L1-REVALIDATED" rid)
      else if resp.status = 200 then
        let fresh := ⟨200, resp.body, dictOf resp.headers⟩
        perform (.cachePut url fresh)
        return .ok (fromCache fresh "REVALIDATED" rid)
      else return .ok (fromCache cached "HIT-L1" rid)

def serveL2 (url : Url) (rid : String) : Request (Except PyExc (Option Response)) := do
  let hit : Except PyExc (Option Cached) ← perform (.diskGet url)
  match hit with
  | .error exc => return .error exc
  | .ok none => return .ok none
  | .ok (some cached) =>
    perform (.cachePut url cached)
    return .ok (some (fromCache cached "HIT-L2" rid))

def serveCached (cfg : RequestConfig) (req : ClientRequest) (url : Url) (rid : String) :
    Request (Except PyExc (Option Response)) :=
  if req.method = "GET" ∧ ¬ req.bypassesCache then do
    let hit : Option Cached ← perform (.cacheGet url)
    match hit with
    | some cached =>
      match ← serveL1 cfg req url rid cached with
      | .ok r => return .ok (some r)
      | .error exc => return .error exc
    | none => serveL2 url rid
  else return .ok none

def readBody (req : ClientRequest) : Request (Except PyExc (Option Bytes)) :=
  if req.readsBody then do
    match ← perform (.readBody) with
    | .ok body => return .ok (some body)
    | .error exc => return .error exc
  else return .ok none

/-- `CACHE.put` and the disk write of a GET. -/
def storeResponse (req : ClientRequest) (url : Url) (r : Response) : Request Unit :=
  if req.method = "GET" then do
    perform (.cachePut url ⟨r.status, r.body, r.dict⟩)
    perform (.diskPut url ⟨r.status, r.body, r.dict⟩)
  else return ()

/-- `_ProgressiveStream.send`. -/
def sendStream (plan : StreamPlan) : Request (Except PyExc Unit) :=
  match plan.jobs with
  | .error exc => return .error exc
  | .ok jobs => do
    let run : StreamRun plan jobs ← perform (.stream plan jobs)
    return run.outcome

/-- What the `try` does with what `handle_inner` returned. -/
def finish (req : ClientRequest) (url : Url) (rid : String) :
    Outcome → Request (Except PyExc Reply)
  | .stream plan => do
    match ← sendStream plan with
    | .error exc => return .error exc
    | .ok () => return .ok (.streamed plan)
  | .response r => do
    storeResponse req url r
    return .ok (.response { r with headers := r.headers ++ [("X-Request-ID", rid)] })

def timedOut (cfg : RequestConfig) (rid : String) : Reply :=
  .response <| .ofText 504 "text/plain" s!"Request timeout after {cfg.requestTimeout}s"
    [("X-Request-ID", rid)]

/-- The `except` branches.  A cancellation of `handle_inner` by its deadline is a timeout, any other
cancellation is that of the request. -/
def recover (cfg : RequestConfig) (rid : String) : PyExc → Request Reply
  | .timeout => return timedOut cfg rid
  | .cancelled =>
    if 0 < cfg.requestTimeout then do
      let passed : Bool ← perform .deadline
      if passed then return timedOut cfg rid else return .raised .cancelled
    else return .raised .cancelled
  | _ =>
    return .response
      (.ofText 502 "text/plain" "Proxy error \u2014 see server log" [("X-Request-ID", rid)])

def respond (cfg : RequestConfig) (req : ClientRequest) (url : Url) (rid : String) :
    Except PyExc Outcome → Request Reply
  | .error exc => recover cfg rid exc
  | .ok outcome => do
    match ← finish req url rid outcome with
    | .ok reply => return reply
    | .error .cancelled => return .raised .cancelled
    | .error exc => recover cfg rid exc

/-- The `try` of `handle_request`. -/
def serve (cfg : RequestConfig) (req : ClientRequest) (url : Url) (rid : String) (chunkSize : Int)
    (body : Option Bytes) : Request Reply := do
  let result ← handleInner (innerArgs cfg req url rid chunkSize body)
  respond cfg req url rid result

/-- `handle_request` for a url of a supported scheme. -/
def handleUrl (cfg : RequestConfig) (req : ClientRequest) (url : Url) (rid : String)
    (sizer : Option Int) : Request Reply := do
  match ← serveCached cfg req url rid with
  | .error exc => return .raised exc
  | .ok (some r) => return .response r
  | .ok none =>
    match ← readBody req with
    | .error exc => return .raised exc
    | .ok body => serve cfg req url rid (sizer.getD cfg.staticChunkSize) body

def handleRequest (cfg : RequestConfig) (req : ClientRequest) (rid : String)
    (sizer : Option Int) : Request Reply :=
  match truthy req.url with
  | none => return .response (.ofText 400 "text/plain" "Missing ?url= parameter\n" [])
  | some url =>
    if startsWith url "http://" ∨ startsWith url "https://" then handleUrl cfg req url rid sizer
    else return .response (.ofText 400 "text/plain" s!"Unsupported scheme: {url}" [])

end ProxySplit
