import Vhrn.Proxy.Server.Response

/-!
# Forwarding

The two heads of one exchange with an origin: the request head the origin is sent, and the head the
client gets for an origin response. Both are stripped of hop-by-hop fields, and framing fields are
regenerated from the framing that was parsed.
-/

namespace Vhrn.Proxy

variable [HttpCrate]

/-! ## Outcomes -/

inductive ForwardErrorKind
  | badRequest
  | badGateway
  | cancelled
  | clientDisconnected
  deriving DecidableEq, Repr

structure ForwardError where
  kind : ForwardErrorKind
  requestComplete : Bool
  deriving DecidableEq, Repr

structure Forwarded (β : Type) where
  response : OriginResponse β
  requestComplete : Bool

/-! ## The request head -/

/-- The request target in origin form. -/
def outboundPath (method : Method) (pathAndQuery : Bytes) : Bytes :=
  if method = Method.options ∧ pathAndQuery = [] then [42]
  else if pathAndQuery = [] then [47]
  else if pathAndQuery.head? = some 63 then 47 :: pathAndQuery
  else pathAndQuery

/-- The framing fields of an outbound request. -/
def appendFraming (headers : HeaderMap) (framing : BodyFraming)
    (transferCodings : List HeaderValue) : Option HeaderMap :=
  match framing with
  | .none => some headers
  | .contentLength length =>
    (HeaderValue.fromStr (Numerals.decimal length)).map (headers.insert .contentLength)
  | .chunked => some (transferCodings.foldl (·.append .transferEncoding ·) headers)

/-- The fields of an outbound request. -/
def outboundHeaders (head : RequestHead) (host : Bytes) : Option HeaderMap := do
  let transferCodings := head.headers.getAll .transferEncoding
  let headers ← sanitizeHopByHop head.headers
  let headers := if head.version = .http10 then headers.remove .expect else headers
  let headers := ((headers.remove .host).remove .contentLength).remove .transferEncoding
  let host ← HeaderValue.fromStr host
  let headers := appendVia (headers.insert .host host) head.version
  appendFraming headers head.framing transferCodings

def serializeRequestHead (head : RequestHead) (pathAndQuery host : Bytes) : Option Bytes :=
  (outboundHeaders head host).map fun headers =>
    head.method ++ 32 :: outboundPath head.method pathAndQuery ++ ascii " HTTP/1.1" ++ crlf ++
      fieldLines headers ++ crlf

/-! ## The response head -/

/-- What a client of the given version is sent for an origin response head, and the names that are
removed from its trailers; `none` for a response that is not forwarded. -/
def forwardResponseHead (version : Version) (response : OriginResponseHead) :
    Option (HeaderMap × List HeaderName) := do
  if response.status = StatusCode.switchingProtocols then none
  let transferCodings := response.headers.getAll .transferEncoding
  let nominations ← connectionNominations response.headers
  let headers ← sanitizeHopByHop response.headers
  let headers ← match version with
    | .http11 =>
      let headers := transferCodings.foldl (·.append .transferEncoding ·) headers
      some <| if response.transferCoding = .finalNonChunked ∧ response.framing ≠ .none then
          headers.append .transferEncoding chunkedValue
        else headers
    | .http10 =>
      if response.framing ≠ .none ∧ (response.transferCoding = .finalNonChunked ∨
          response.transferCoding = .finalChunked true) then none
      else some headers
  return (appendVia headers response.version, nominations)

/-- The transfer codings of a response that goes on to a client. -/
def framedHeaders (version : Version) (response : OriginResponseHead) (headers : HeaderMap) :
    HeaderMap :=
  match version with
  | .http11 =>
    let headers := (response.headers.getAll .transferEncoding).foldl (·.append .transferEncoding ·) headers
    if response.transferCoding = .finalNonChunked ∧ response.framing ≠ .none then
      headers.append .transferEncoding chunkedValue
    else headers
  | .http10 => headers

theorem forwardResponseHead_eq_some {version : Version} {response : OriginResponseHead}
    {headers : HeaderMap} {nominations : List HeaderName}
    (h : forwardResponseHead version response = some (headers, nominations)) :
    response.status ≠ StatusCode.switchingProtocols ∧
      connectionNominations response.headers = some nominations ∧
      (version = .http10 → response.framing = .none ∨ response.transferCoding ≠ .finalNonChunked ∧
        response.transferCoding ≠ .finalChunked true) ∧
      ∃ sanitized, sanitizeHopByHop response.headers = some sanitized ∧
        headers = appendVia (framedHeaders version response sanitized) response.version := by
  by_cases h101 : response.status = StatusCode.switchingProtocols
  · rw [forwardResponseHead, if_pos h101] at h
    cases h
  · rw [forwardResponseHead, if_neg h101] at h
    obtain ⟨nominations', hnominations, hrest⟩ := Option.bind_eq_some_iff.mp h
    obtain ⟨sanitized, hsanitized, hrest⟩ := Option.bind_eq_some_iff.mp hrest
    cases version with
    | http11 =>
      obtain ⟨rfl, rfl⟩ := Prod.mk.inj (Option.some.inj hrest)
      exact ⟨h101, hnominations, (nomatch ·), sanitized, hsanitized, rfl⟩
    | http10 =>
      simp only at hrest
      split at hrest
      · cases hrest
      · rename_i hframed
        obtain ⟨rfl, rfl⟩ := Prod.mk.inj (Option.some.inj hrest)
        refine ⟨h101, hnominations, fun _ => ?_, sanitized, hsanitized, rfl⟩
        by_cases hnone : response.framing = .none
        · exact .inl hnone
        · exact .inr (not_or.mp fun h => hframed ⟨hnone, h⟩)

end Vhrn.Proxy
