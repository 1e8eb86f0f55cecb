import Vhrn.Proxy.Connect.BrokerProtocol
import Vhrn.Proxy.Connect.Forward
import Vhrn.Proxy.Connect.Public

/-!
# Origin dispatch

From an authorized request head to its outcome. What the handler awaits is in `RouteEnv`: the shutdown
request, the client's departure, the connections to origins and the exchange with one, which runs on
the client connection (a state of type `σ`) and ends with the response of an origin (with a body of
type `β`). The idle pool and the connections that were checked out of it are shared by all requests;
a request touches them once, when it checks a connection out.
-/

namespace Vhrn.Proxy

open Traced

variable [HttpCrate] {σ β : Type}

/-! ## The world around a request -/

/-- What the handling of one request meets. -/
structure RouteEnv (σ β : Type) [HttpCrate] where
  /-- Shutdown is requested during authorization, after so many of its effects. -/
  authorizeCut : Option ℕ
  /-- The client is gone during the checkout of a connection, after so many of its effects. -/
  peerClose : Option ℕ
  now : ℕ
  connect : ConnectEnv
  /-- The broker's answer to a connection attempt, with the octets it sent ahead. -/
  broker : Except BrokerError Bytes
  /-- The exchange of a request with the given path and host. -/
  exchange : RequestHead → (pathAndQuery host : Bytes) → σ → Except ForwardError (Forwarded β) × σ
  healthy : Bool

/-- The public origin connections: the idle ones, and those checked out for a request. -/
structure Origins where
  pool : PublicPool
  leased : List (OriginKey × PublicStream)

/-! ## Failures -/

structure Http1Outcome (β : Type) [HttpCrate] where
  response : Response β
  bodyConsumed : Bool
  reusable : Bool

def ForwardErrorKind.proxyFailure : ForwardErrorKind → ProxyFailure
  | .badRequest => .badRequest
  | .badGateway => .badGateway
  | .cancelled | .clientDisconnected => .serviceUnavailable

/-- The client or the proxy is going away. -/
def ForwardErrorKind.ends (kind : ForwardErrorKind) : Bool :=
  kind = .cancelled || kind = .clientDisconnected

def forwardFailure (error : ForwardError) (head : Bool) : Http1Outcome β :=
  { response := failure error.kind.proxyFailure head
    bodyConsumed := error.requestComplete
    reusable := error.requestComplete && !error.kind.ends }

def BrokerError.proxyFailure : BrokerError → ProxyFailure
  | .deadlineExceeded => .gatewayTimeout
  | .cancelled | .exhausted => .serviceUnavailable
  | .rejected | .unavailable | .originFailure => .badGateway

def brokerFailure (error : BrokerError) : Traced Event ProxyFailure := do
  emit .report
  return error.proxyFailure

/-- A prohibited address is a denial, which is recorded unless the request has been recorded before. -/
def publicFailure (error : PublicConnectError) (authorized : AuthorizedPublic)
    (context : RequestContext) : Traced Event ProxyFailure := do
  match error with
  | .policyDenied =>
    if !authorized.alreadyAudited then
      recordBestEffort context .addressDenied (.ofPublic authorized.target) authorized.effectiveMode
    return .publicDenied authorized.target.host.display
  | .deadlineExceeded =>
    emit .report
    return .gatewayTimeout
  | .cancelled | .exhausted =>
    emit .report
    return .serviceUnavailable
  | .unavailable =>
    emit .report
    return .badGateway

/-! ## Forwarding -/

inductive PublicForwardError
  | connect (error : PublicConnectError)
  | exchange (error : ForwardError)

inductive BrokerForwardError
  | connect (error : BrokerError)
  | exchange (error : ForwardError)
  | origin (source : BrokerError) (error : ForwardError)

def clientGone : ForwardError := { kind := .clientDisconnected, requestComplete := false }

/-- Forwards a request to a public origin, over a pooled connection or a new one. -/
def forwardPublic (target : PublicTarget) (head : RequestHead) (connection : σ) (origins : Origins)
    (env : RouteEnv σ β) :
    Traced Event (Except PublicForwardError (Forwarded β) × σ × Origins) := do
  let checkedOut := do
    let (origin, pool) ← checkout target origins.pool env.now env.connect
    return (origin.mapError PublicForwardError.connect, pool)
  match ← checkedOut.cut env.peerClose (.error (.exchange clientGone), origins.pool) with
  | (.error error, pool) => return (.error error, connection, { origins with pool })
  | (.ok origin, pool) =>
    let (forwarded, connection) := env.exchange head target.pathAndQuery target.authority connection
    return (forwarded.mapError .exchange, connection,
      { pool, leased := (.fromTarget target, origin.io) :: origins.leased })

/-- The host field for a local origin, which has a port when the target spells one. -/
def LocalTarget.host (target : LocalTarget) : Bytes :=
  let canonical := target.canonicalAuthority.display
  if target.explicitPort then canonical
  else match rsplitOnce 58 canonical with
    | some (host, _) => host
    | none => canonical

/-- Forwards a request to a local origin through the broker. -/
def forwardLocal (target : LocalTarget) (head : RequestHead) (connection : σ)
    (env : RouteEnv σ β) : Except BrokerForwardError (Forwarded β) × σ :=
  match env.peerClose, env.broker with
  | some _, _ => (.error (.exchange clientGone), connection)
  | none, .error error => (.error (.connect error), connection)
  | none, .ok _ =>
    let (forwarded, connection) := env.exchange head target.pathAndQuery target.host connection
    (forwarded.mapError fun error =>
      if error.kind = .badGateway then .origin .originFailure error else .exchange error, connection)

def forwardedOutcome (forwarded : Forwarded β) (head : Bool) : Http1Outcome β :=
  { response := origin forwarded.response head
    bodyConsumed := forwarded.requestComplete
    reusable := forwarded.requestComplete }

/-- A response that does not touch the body of the request. -/
def unreadOutcome (response : Response β) (reusable : Bool) : Http1Outcome β :=
  { response, bodyConsumed := false, reusable }

/-- There is a connector to the broker when local routing is configured. -/
def Config.hasLocal (config : Config) : Bool := config.localPaths.isSome

def dispatchHttp1 (head : RequestHead) (connection : σ) (origins : Origins)
    (route : AuthorizedRoute) (context : RequestContext) (env : RouteEnv σ β) :
    Traced Event (Http1Outcome β × σ × Origins) := do
  let isHead := head.method = Method.head
  match route with
  | .publicHttp authorized =>
    let (forwarded, connection, origins) ←
      forwardPublic authorized.target head connection origins env
    match forwarded with
    | .ok value => return (forwardedOutcome value isHead, connection, origins)
    | .error (.connect error) =>
      let proxyFailure ← publicFailure error authorized context
      return (unreadOutcome (failure proxyFailure isHead) true, connection, origins)
    | .error (.exchange error) => return (forwardFailure error isHead, connection, origins)
  | .localHttp target =>
    if !context.config.hasLocal then
      return (unreadOutcome (failure (.localDenied target.canonicalAuthority.display) isHead) true,
        connection, origins)
    let (forwarded, connection) := forwardLocal target head connection env
    match forwarded with
    | .ok value => return (forwardedOutcome value isHead, connection, origins)
    | .error (.connect error) =>
      let proxyFailure ← brokerFailure error
      return (unreadOutcome (failure proxyFailure isHead) true, connection, origins)
    | .error (.exchange error) => return (forwardFailure error isHead, connection, origins)
    | .error (.origin _ error) =>
      emit .report
      return (forwardFailure error isHead, connection, origins)
  | .direct _ | .asterisk | .publicConnect _ | .localConnect _ =>
    return (unreadOutcome (failure .badRequest isHead) false, connection, origins)

/-! ## The proxy's own resources -/

def maxModeBytes : ℕ := 8

/-- The mode that the status resource shows. -/
def readStatusMode (file : PolicyFile) : Option Mode :=
  match file.read with
  | .opened true len (some contents) =>
    if maxModeBytes < len then none else parseMode (contents.take (maxModeBytes + 1))
  | _ => none

def healthPath : Bytes := ascii "/healthz"

def statusPath : Bytes := ascii "/__status"

def getHeadValue : HeaderValue := .ofStatic (ascii "GET, HEAD") (by decide)

def allMethodsValue : HeaderValue := .ofStatic (ascii "GET, HEAD, OPTIONS, CONNECT") (by decide)

def jsonType : HeaderValue := .ofStatic (ascii "application/json") (by decide)

def direct (method : Method) (target : DirectTarget) (context : RequestContext) (healthy : Bool) :
    Response β :=
  let head := method = Method.head
  let path := target.pathAndQuery
  if (path = healthPath || path = statusPath) && method != Method.get && !head then
    let response := represented 405 (some plainText) (ascii "method not allowed\n") false
    { response with headers := response.headers.insert .allow getHeadValue }
  else if path = healthPath then
    if healthy then represented 200 (some plainText) (ascii "ok\n") head
    else represented 503 (some plainText) (ascii "unhealthy\n") head
  else if path = statusPath then
    let mode := readStatusMode context.config.modeFile
    let text := ascii "\x7b\"mode\":\"" ++ (mode.getD .enforce).asStr ++ ascii "\"\x7d\n"
    represented (if mode.isSome then 200 else 503) (some jsonType) text head
  else represented 404 (some plainText) (ascii "404 page not found\n") head

def asterisk (method : Method) : Response β :=
  if method != Method.options then failure .badRequest (method = Method.head)
  else
    let response := fixed 204 none []
    { response with headers := response.headers.insert .allow allMethodsValue }

/-! ## Requests -/

def ProxyFailure.isDenial : ProxyFailure → Bool
  | .publicDenied _ | .localDenied _ => true
  | _ => false

/-- The authorization of a request target, which a shutdown request ends. -/
def routeFor (head : RequestHead) (context : RequestContext) (env : RouteEnv σ β) :
    Traced Event (Except ProxyFailure AuthorizedRoute) :=
  (authorize (classify head.method head.rawTarget) context).cut env.authorizeCut
    (.error .serviceUnavailable)

def handleHttp1 (head : RequestHead) (connection : σ) (origins : Origins) (context : RequestContext)
    (env : RouteEnv σ β) : Traced Event (Http1Outcome β × σ × Origins) := do
  let isHead := head.method = Method.head
  match ← routeFor head context env with
  | .error error =>
    return (unreadOutcome (failure error isHead) error.isDenial, connection, origins)
  | .ok (.direct target) =>
    return (unreadOutcome (direct head.method target context env.healthy) true, connection, origins)
  | .ok .asterisk =>
    return (unreadOutcome (asterisk head.method) (head.method = Method.options), connection, origins)
  | .ok (.publicHttp authorized) =>
    dispatchHttp1 head connection origins (.publicHttp authorized) context env
  | .ok (.localHttp target) =>
    dispatchHttp1 head connection origins (.localHttp target) context env
  | .ok (.publicConnect _) | .ok (.localConnect _) =>
    return (unreadOutcome (failure .badRequest isHead) false, connection, origins)

/-- The origin side of a tunnel. -/
inductive ConnectedUpstream
  | publicStream (stream : PublicStream)
  | broker (readAhead : Bytes)

def connectHttp1 (head : RequestHead) (context : RequestContext) (env : RouteEnv σ β) :
    Traced Event (Except ProxyFailure ConnectedUpstream) := do
  match ← routeFor head context env with
  | .error error => return .error error
  | .ok (.publicConnect authorized) =>
    match ← openTarget authorized.target env.connect with
    | .ok stream => return .ok (.publicStream stream)
    | .error error => return .error (← publicFailure error authorized context)
  | .ok (.localConnect target) =>
    if !context.config.hasLocal then
      return .error (.localDenied target.canonicalAuthority.display)
    match env.broker with
    | .ok readAhead => return .ok (.broker readAhead)
    | .error error => return .error (← brokerFailure error)
  | .ok _ => return .error .badRequest

end Vhrn.Proxy
