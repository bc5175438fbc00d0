import ProxySplit.Fetchers.Effects
import ProxySplit.PyText

namespace ProxySplit

open Lib

abbrev Headers := List (String × String)

/-- `headers.get(name)` of a case-insensitive multi-dict. -/
def getHeader (headers : Headers) (name : String) : Option String :=
  (headers.find? fun h => h.1.toLower = name.toLower).map Prod.snd

/-- `dict(headers)` of a case-insensitive multi-dict: every name keeps its spelling and gets the first
value under it. -/
def dictOf (headers : Headers) : Headers :=
  headers.map fun h => (h.1, (getHeader headers h.1).getD h.2)

def forwardHeaders (names : List String) (reqHeaders : Headers) : Headers :=
  reqHeaders.filter fun h => h.1.toLower ∈ names

/-- Content length, support for ranges, content type. -/
structure HeadInfo where
  contentLength : Option Int
  supportsRanges : Bool
  contentType : String
  deriving DecidableEq

structure ProbeArgs where
  url : Url
  reqHeaders : Headers
  pool : Option String
  weighted : Bool
  headRetries : Int
  deriving DecidableEq

namespace ProbeArgs

def forward (args : ProbeArgs) : Headers :=
  forwardHeaders ["accept", "user-agent", "accept-language"] args.reqHeaders

def headRequest (args : ProbeArgs) (proxy : Url) : HttpRequest where
  session := some proxy
  method := "HEAD"
  url := args.url
  headers := args.forward
  body := none

def rangeRequest (args : ProbeArgs) (proxy : Url) : HttpRequest where
  session := some proxy
  method := "GET"
  url := args.url
  headers := args.forward ++ [("Range", "bytes=0-0")]
  body := none

end ProbeArgs

def contentTypeOf (resp : HttpResponse) : String :=
  (getHeader resp.headers "Content-Type").getD "application/octet-stream"

def tryHead (args : ProbeArgs) (proxy : Url) : Fetch (Except PyExc (Option HeadInfo)) := do
  let answer : Except PyExc (Option HeadInfo) ← do
    match ← ask (.http (args.headRequest proxy)) with
    | .error exc => pure (.error exc)
    | .ok resp =>
      let ar := ((getHeader resp.headers "Accept-Ranges").getD "none").toLower
      match truthy (getHeader resp.headers "Content-Length") with
      | none => pure (.ok none)
      | some cl =>
        match PyText.int cl.toList with
        | none => pure (.error (.valueError s!"invalid literal for int() with base 10: '{cl}'"))
        | some n => pure (.ok (some ⟨some n, ar = "bytes", contentTypeOf resp⟩))
  match answer with
  | .ok info => return .ok info
  | .error exc =>
    if exc.isException then
      ask (.recordFailure (some proxy))
      return .ok none
    else return .error exc

def afterLastSlash (cr : List Char) : List Char := (cr.reverse.takeWhile (· ≠ '/')).reverse

/-- What the answer to the `bytes=0-0` probe says.  `none` leaves the probe without a result: a
`ValueError` of `int` ends there too. -/
def readRangeProbe (resp : HttpResponse) : Option HeadInfo :=
  let ct := contentTypeOf resp
  if resp.status = 206 then
    let cr := ((getHeader resp.headers "Content-Range").getD "").toList
    let total := PyText.strip (afterLastSlash cr)
    if '/' ∈ cr ∧ total ≠ [] ∧ total.all PyText.isDigit then
      (PyText.int total).map fun n => ⟨some n, true, ct⟩
    else none
  else if resp.status = 200 then
    match truthy (getHeader resp.headers "Content-Length") with
    | none => some ⟨none, false, ct⟩
    | some cl => (PyText.int cl.toList).map fun n => ⟨some n, false, ct⟩
  else none

/-- Stage 2 of `get_head_info`. -/
def rangeProbe (args : ProbeArgs) : Fetch (Except PyExc HeadInfo) := do
  let failed := PyExc.runtimeError s!"Could not determine Content-Length for {args.url}"
  match truthy (← pickProxy args.pool ∅ args.weighted) with
  | none => return .error failed
  | some proxy =>
    match ← ask (.http (args.rangeRequest proxy)) with
    | .error .cancelled => return .error .cancelled
    | .error _ => return .error failed
    | .ok resp =>
      match readRangeProbe resp with
      | some info => return .ok info
      | none => return .error failed

/-- The picks of stage 1: at most `head_retries` proxies, each avoiding those before it. -/
def probeProxies (args : ProbeArgs) : Nat → List Url → Fetch (List Url)
  | 0, picked => return picked
  | n + 1, picked => do
    match truthy (← pickProxy args.pool picked.toFinset args.weighted) with
    | none => return picked
    | some p => probeProxies args n (picked ++ [p])

structure WholeJob where
  url : Url
  reqHeaders : Headers
  body : Option Bytes
  method : String
  requestProxy : Option Url
  retries : Int
  pool : Option String
  weighted : Bool
  deriving DecidableEq

structure WholeResult where
  status : Nat
  data : Bytes
  headers : Headers
  deriving DecidableEq

def WholeJob.request (job : WholeJob) (current : Option Url) : HttpRequest where
  session := current
  method := job.method
  url := job.url
  headers := forwardHeaders
    ["accept", "user-agent", "accept-language", "accept-encoding", "content-type"] job.reqHeaders
  body := job.body

/-- The breaker check of `fetch_whole`, which asks nothing when there is no proxy. -/
def checkBreakerWhole (job : WholeJob) (current : Option Url) : Fetch (Option Url) :=
  match truthy current with
  | none => return current
  | some p => do
    let view : AllowView ← ask (.allowRequest p)
    if view.answer p then return current
    let alt ← pickOther job.pool {p} job.weighted
    return alt.or current

/-- The body of the `try` of `fetch_whole`. -/
def requestWhole (job : WholeJob) (current : Option Url) : Fetch (Except PyExc WholeResult) := do
  match ← ask (.http (job.request current)) with
  | .error exc => return .error exc
  | .ok resp =>
    ask (.recordSuccess current resp.body.length 0)
    return .ok ⟨resp.status, resp.body, dictOf resp.headers⟩

def nextProxyWhole (job : WholeJob) (current : Option Url) (left : Nat) : Fetch (Option Url) :=
  if 0 < left ∧ job.requestProxy = none then do
    let nxt ← pickOther job.pool current.toFinset job.weighted
    return nxt.or current
  else return current

def wholeAttempts (job : WholeJob) :
    (left : Nat) → (current : Option Url) → (lastExc : PyExc) → Fetch (Except PyExc WholeResult)
  | 0, _, lastExc => return .error lastExc
  | left + 1, current, _ => do
    let current ← checkBreakerWhole job current
    match ← requestWhole job current with
    | .ok res => return .ok res
    | .error exc =>
      if exc.isException then
        ask (.recordFailure current)
        let current ← nextProxyWhole job current left
        wholeAttempts job left current exc
      else return .error exc

def firstProxy (job : WholeJob) : Fetch (Option Url) :=
  match truthy job.requestProxy with
  | some p => return some p
  | none => pickProxy job.pool ∅ job.weighted

def fetchWhole (job : WholeJob) : Fetch (Except PyExc WholeResult) := do
  let current ← firstProxy job
  wholeAttempts job job.retries.toNat current (.runtimeError "no attempts")

end ProxySplit
