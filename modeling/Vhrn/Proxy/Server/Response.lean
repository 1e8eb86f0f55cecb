import Vhrn.Proxy.Headers
import Vhrn.Proxy.Server.Authorize

/-!
# Responses

The responses that the proxy writes itself, the responses of origins that it passes on, and the head
and body octets of either. A response is committed by the first octet of its head; a body that fails
later leaves what was written before it.
-/

namespace Vhrn.Proxy

variable [HttpCrate]

/-- A response. Its body is data that is there already, or the body of an origin response. -/
inductive ProxyBody (β : Type)
  | full (data : Bytes)
  | origin (body : β)

structure Response (β : Type) where
  status : StatusCode
  headers : HeaderMap
  body : ProxyBody β

/-- A final origin response whose body is still to come. -/
structure OriginResponse (β : Type) where
  status : StatusCode
  headers : HeaderMap
  body : β

/-! ## The proxy's own responses -/

def maxGenericBodyBytes : ℕ := 1024

/-- The status, the text and whether the connection ends. -/
def ProxyFailure.representation : ProxyFailure → StatusCode × Bytes × Bool
  | .badRequest => (400, ascii "bad request\n", true)
  | .headersTooLarge => (431, ascii "request header fields too large\n", true)
  | .unsupportedVersion => (505, ascii "HTTP version not supported\n", true)
  | .notImplemented => (501, ascii "not implemented\n", true)
  | .publicDenied host => (403, ascii "blocked by vhrn egress policy: " ++ host ++ [10], false)
  | .localDenied authority =>
    (403, ascii "blocked by vhrn local policy: " ++ authority ++ [10], false)
  | .httpsRequiresConnect => (400, ascii "HTTPS requires CONNECT\n", true)
  | .reportLogUnavailable | .serviceUnavailable =>
    (503, ascii "proxy temporarily unavailable\n", true)
  | .badGateway => (502, ascii "bad gateway\n", false)
  | .gatewayTimeout => (504, ascii "gateway timeout\n", false)

def plainText : HeaderValue := .ofStatic (ascii "text/plain; charset=utf-8") (by decide)

def closeValue : HeaderValue := .ofStatic (ascii "close") (by decide)

def keepAliveValue : HeaderValue := .ofStatic (ascii "keep-alive") (by decide)

def chunkedValue : HeaderValue := .ofStatic (ascii "chunked") (by decide)

/-- A length in decimal. -/
def lengthValue (length : ℕ) : HeaderValue :=
  .ofStatic (Numerals.decimal length) <| List.all_eq_true.mpr fun b h =>
    fieldOctet_of_isDigit b (Numerals.isDigit_of_mem_decimal h)

/-- A text that fits one line of a generic response. -/
def boundedText (text : Bytes) : Bytes :=
  if maxGenericBodyBytes < text.length || text.getLast? != some 10 ||
      text.dropLast.any fun byte => byte == 13 || byte == 10 then ascii "proxy error\n"
  else text

def failure {β : Type} (failure : ProxyFailure) (head : Bool) : Response β :=
  let (status, text, close) := failure.representation
  let text := boundedText text
  let headers := (HeaderMap.empty.insert .contentType plainText).insert .contentLength
    (lengthValue text.length)
  { status
    headers := if close then headers.insert .connection closeValue else headers
    body := .full (if head then [] else text) }

def fixed {β : Type} (status : StatusCode) (contentType : Option HeaderValue) (body : Bytes) :
    Response β :=
  { status
    headers := match contentType with
      | some value => HeaderMap.empty.insert .contentType value
      | none => HeaderMap.empty
    body := .full body }

def represented {β : Type} (status : StatusCode) (contentType : Option HeaderValue)
    (representation : Bytes) (head : Bool) : Response β :=
  let headers := match contentType with
    | some value => HeaderMap.empty.insert .contentType value
    | none => HeaderMap.empty
  { status
    headers := headers.insert .contentLength (lengthValue representation.length)
    body := .full (if head then [] else representation) }

def origin {β : Type} (origin : OriginResponse β) (head : Bool) : Response β :=
  { status := origin.status
    headers := HeaderMap.empty.extend origin.headers
    body := if head then .full [] else .origin origin.body }

/-! ## Octets of a head -/

def fieldLine (field : HeaderName × HeaderValue) : Bytes :=
  field.1.asStr ++ ascii ": " ++ field.2.asBytes ++ crlf

def fieldLines (headers : HeaderMap) : Bytes := (headers.fields.map fieldLine).flatten

def Version.wire : Version → Bytes
  | .http10 => ascii "HTTP/1.0"
  | .http11 => ascii "HTTP/1.1"

/-- The head of a response with the given fields. -/
def responseHead (version : Version) (status : StatusCode) (headers : HeaderMap) : Bytes :=
  version.wire ++ 32 :: Numerals.decimal status ++ 32 ::
    (HttpCrate.canonicalReason status).getD [] ++ crlf ++ fieldLines headers ++ crlf

/-- How a response is written: whether it has a body, in chunks, whether the connection ends after it,
and its head. -/
structure PreparedHead where
  bodyAllowed : Bool
  chunked : Bool
  close : Bool
  headers : HeaderMap
  head : Bytes

def bodyAllowed (method : Method) (status : StatusCode) : Bool :=
  method != Method.head && !status.isInformational && status != StatusCode.noContent &&
    status != StatusCode.notModified

def prepareResponseHead (status : StatusCode) (headers : HeaderMap) (version : Version)
    (method : Method) (close : Bool) : PreparedHead :=
  let headers := if version = .http10 then headers.remove .transferEncoding else headers
  let close := close || (headers.get .connection).any fun value =>
    eqIgnoreCase value.asBytes (ascii "close")
  let allowed := bodyAllowed method status
  let chunked := allowed && !headers.contains .contentLength && version == .http11
  let close := close || (!chunked && allowed && !headers.contains .contentLength)
  let headers := if chunked && !headers.contains .transferEncoding then
      headers.insert .transferEncoding chunkedValue
    else headers
  let headers := if close then headers.insert .connection closeValue
    else if version = .http10 then headers.insert .connection keepAliveValue
    else headers
  { bodyAllowed := allowed
    chunked
    close
    headers
    head := responseHead version status headers }

/-! ## Octets of a body -/

/-- One frame of a body. -/
inductive Frame
  | data (data : Bytes)
  | trailers (trailers : HeaderMap)

/-- A chunk size in hexadecimal and its line end. -/
def chunkPrefix (length : ℕ) : Bytes := Numerals.numeral 16 length ++ crlf

/-- What is written for the frames of a body, and whether it ends without an error. A frame that is not
there stands for a body that fails. -/
def writeResponseBody (chunked : Bool) : List (Option Frame) → Bytes × Bool
  | [] => (if chunked then 48 :: crlf ++ crlf else [], true)
  | none :: _ => ([], false)
  | some (.data data) :: frames =>
    let (written, ended) := writeResponseBody chunked frames
    if data.isEmpty then (written, ended)
    else if chunked then (chunkPrefix data.length ++ data ++ crlf ++ written, ended)
    else (data ++ written, ended)
  | some (.trailers trailers) :: frames =>
    if chunked then (48 :: crlf ++ fieldLines trailers ++ crlf, true)
    else writeResponseBody chunked frames

end Vhrn.Proxy
