import Vhrn.Proxy.Server.Http1.Fields

/-!
# HTTP/1 message heads

The heads of requests and of origin responses, from the octets of their first line and of their field
section. The framing of the body is part of a head.
-/

namespace Vhrn.Proxy

/-! ## Messages -/

inductive Version
  | http10
  | http11
  deriving DecidableEq, Repr

inductive BodyFraming
  | none
  | contentLength (length : ℕ)
  | chunked
  deriving DecidableEq, Repr

def BodyFraming.hasBody : BodyFraming → Bool
  | .none => false
  | .contentLength length => length != 0
  | .chunked => true

inductive OriginError
  | invalid
  | headersTooLarge
  | incomplete
  deriving DecidableEq, Repr

inductive OriginBodyFraming
  | none
  | contentLength (length : ℕ)
  | chunked
  | closeDelimited
  deriving DecidableEq, Repr

inductive OriginTransferCoding
  | absent
  | finalChunked (hasPrior : Bool)
  | finalNonChunked
  deriving DecidableEq, Repr

/-- A status code and its classes. -/
abbrev StatusCode := ℕ

namespace StatusCode

def isInformational (status : StatusCode) : Bool := 100 ≤ status && status < 200

def switchingProtocols : StatusCode := 101

def noContent : StatusCode := 204

def notModified : StatusCode := 304

end StatusCode

variable [HttpCrate]

structure RequestHead where
  method : Method
  rawTarget : Bytes
  version : Version
  headers : HeaderMap
  framing : BodyFraming
  close : Bool
  upgrade : Bool
  expect : Bool

structure OriginResponseHead where
  version : Version
  status : StatusCode
  headers : HeaderMap
  framing : OriginBodyFraming
  transferCoding : OriginTransferCoding
  close : Bool

/-! ## Requests -/

/-- The position of the first CRLF after a CRLF in a field section, or of a CRLF at its start; the end
of a head is after it. -/
def findSectionEnd (bytes : Bytes) : Option ℕ :=
  if crlf.isPrefixOf bytes then some 2
  else (splitOnceSeq (crlf ++ crlf) bytes).map fun parts => parts.1.length + 4

def validHost (value : HeaderValue) : Bool :=
  match value.toStr with
  | none => false
  | some text =>
    !text.isEmpty && trim text == text && !text.contains 44 &&
      !text.any (fun byte => Ascii.isWhitespace byte || [64, 47, 63, 35].contains byte) &&
      HttpCrate.isAuthority text

def validateHost (version : Version) (headers : HeaderMap) : Except IngressError Unit :=
  let hosts := headers.getAll .host
  if version = .http11 ∧ hosts.length ≠ 1 then .error .badRequest
  else if hosts.all validHost then .ok ()
  else .error .badRequest

def parseFraming (headers : HeaderMap) : Except IngressError BodyFraming := do
  let contentLength ← parseContentLength headers
  let transferEncoding ← parseTransferEncoding headers
  match contentLength, transferEncoding with
  | some _, true => throw .badRequest
  | some length, false => return .contentLength length
  | none, true => return .chunked
  | none, false => return .none

/-- `HTTP/` and two digits with a dot between them. -/
def isVersionShape : Bytes → Bool
  | [72, 84, 84, 80, 47, major, 46, minor] => Ascii.isDigit major && Ascii.isDigit minor
  | _ => false

def parseVersion (version : Bytes) : Except IngressError Version :=
  if version = ascii "HTTP/1.0" then .ok .http10
  else if version = ascii "HTTP/1.1" then .ok .http11
  else if isVersionShape version then .error .unsupportedVersion
  else .error .badRequest

/-- The connection ends after the message: by default in HTTP/1.0, on request in HTTP/1.1. -/
def closesAfter (version : Version) (connectionTokens : List Bytes) : Bool :=
  match version with
  | .http10 => !connectionTokens.any (eqIgnoreCase · (ascii "keep-alive"))
  | .http11 => connectionTokens.any (eqIgnoreCase · (ascii "close"))

def parseHead (requestLine headerSection : Bytes) : Except IngressError RequestHead :=
  match (stripSuffix crlf requestLine).map (·.splitOn 32) with
  | some [method, rawTarget, version] => do
    if method.isEmpty || rawTarget.isEmpty || version.isEmpty then throw .badRequest
    if !HttpCrate.isMethod method then throw .badRequest
    if rawTarget.any Ascii.isControl then throw .badRequest
    let version ← parseVersion version
    let headers ← parseFields headerSection
    validateHost version headers
    if version = .http10 ∧ headers.contains .transferEncoding = true then throw .badRequest
    let framing ← parseFraming headers
    let connectionTokens ← commaTokens headers .connection
    let connectionUpgrade := connectionTokens.any (eqIgnoreCase · (ascii "upgrade"))
    return {
      method
      rawTarget
      version
      headers
      framing
      close := closesAfter version connectionTokens
      upgrade := headers.contains .upgrade || connectionUpgrade
      expect := headers.contains .expect }
  | _ => .error .badRequest

/-! ## Origin responses -/

def parseOriginTransferEncoding (headers : HeaderMap) :
    Except IngressError OriginTransferCoding := do
  let values ← transferCodings headers
  if values.isEmpty then return .absent
  if values.any (!validTransferCoding ·) then throw .badRequest
  if values.dropLast.any isChunked ||
      values.any (fun value => isChunked value && value.contains 59) then throw .badRequest
  return if values.getLast?.any isChunked then .finalChunked (decide (1 < values.length))
    else .finalNonChunked

/-- The framing of a response body, and whether it ends with the connection. -/
def originFraming (requestMethod : Method) (status : StatusCode)
    (transferCoding : OriginTransferCoding) (contentLength : Option ℕ) (close : Bool) :
    OriginBodyFraming × Bool :=
  let bodyless := requestMethod = Method.head || status.isInformational ||
    status = StatusCode.noContent || status = StatusCode.notModified
  if bodyless then (.none, close)
  else match transferCoding, contentLength with
    | .finalChunked _, _ => (.chunked, close)
    | .finalNonChunked, _ => (.closeDelimited, true)
    | .absent, some length => (.contentLength length, close)
    | .absent, none => (.closeDelimited, true)

/-- The version and the rest of a status line. -/
def splitStatusLine (statusLine : Bytes) : Option (Version × Bytes) := do
  let line ← stripSuffix crlf statusLine
  match stripPrefix (ascii "HTTP/1.0 ") line, stripPrefix (ascii "HTTP/1.1 ") line with
  | some value, _ => return (.http10, value)
  | none, some value => return (.http11, value)
  | none, none => none

/-- A status code below 600 and its reason phrase. -/
def parseStatus (remainder : Bytes) : Option StatusCode :=
  let reasonInvalid := (remainder.drop 4).any fun byte => (byte < 0x20 && byte != 9) || byte == 0x7F
  if remainder.length < 4 || !(remainder.take 3).all Ascii.isDigit || remainder[3]? != some 32 ||
      reasonInvalid then none
  else
    let status := Numerals.value 10 (remainder.take 3)
    if 599 < status || status < 100 then none else some status

def invalidOrigin {α : Type} (result : Except IngressError α) : Except OriginError α :=
  result.mapError fun _ => .invalid

def parseOriginResponseHead (statusLine headerSection : Bytes) (requestMethod : Method) :
    Except OriginError OriginResponseHead := do
  let some (version, remainder) := splitStatusLine statusLine | throw .invalid
  let some status := parseStatus remainder | throw .invalid
  let headers ← invalidOrigin (parseFields headerSection)
  let contentLength ← invalidOrigin (parseContentLength headers)
  let transferCoding ← invalidOrigin (parseOriginTransferEncoding headers)
  if version = .http10 ∧ transferCoding ≠ .absent then throw .invalid
  if contentLength.isSome ∧ transferCoding ≠ .absent then throw .invalid
  if (status.isInformational || status = StatusCode.noContent) ∧
      (contentLength.isSome ∨ transferCoding ≠ .absent) then throw .invalid
  let connectionTokens ← invalidOrigin (commaTokens headers .connection)
  let (framing, close) := originFraming requestMethod status transferCoding contentLength
    (closesAfter version connectionTokens)
  return { version, status, headers, framing, transferCoding, close }

end Vhrn.Proxy
