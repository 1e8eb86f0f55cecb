import Vhrn.Foundations.HttpCrate
import Vhrn.Foundations.Numerals
import Vhrn.Foundations.Split
import Vhrn.Proxy.Domain.Target

/-!
# HTTP/1 field sections

The field syntax that request heads, response heads and trailer sections share: lines that end in CRLF,
one `name: value` on each, and the values that lists, lengths and transfer codings are written in.
-/

namespace Vhrn.Proxy

variable [HttpCrate]

inductive IngressError
  | badRequest
  | headersTooLarge
  | unsupportedVersion
  | incomplete
  deriving DecidableEq, Repr

/-! ## Lines -/

def crlf : Bytes := [13, 10]

/-- No line feed without a carriage return before it, and no carriage return before anything but a line
feed. `previous` is the octet before. -/
def validLineEndingsFrom (previous : Option UInt8) : Bytes → Bool
  | [] => true
  | byte :: rest =>
    !(byte == 10 && previous != some 13) && !(byte == 13 && rest.head?.any (· != 10)) &&
      validLineEndingsFrom (some byte) rest

/-- The position of the first CRLF. -/
def findCrlf : Bytes → Option ℕ
  | 13 :: 10 :: _ => some 0
  | _ :: rest => (findCrlf rest).map (· + 1)
  | [] => none

/-- The lines that a CRLF ends, and what follows the last of them. -/
def crlfLines : Bytes → List Bytes × Bytes
  | 13 :: 10 :: rest => ([] :: (crlfLines rest).1, (crlfLines rest).2)
  | byte :: rest =>
    match crlfLines rest with
    | ([], last) => ([], byte :: last)
    | (line :: lines, last) => ((byte :: line) :: lines, last)
  | [] => ([], [])

/-! ## Values -/

def isOws (byte : UInt8) : Bool := byte == 32 || byte == 9

def trimOws (value : Bytes) : Bytes := trimBy isOws value

/-- Parts between delimiters that stand outside quoted strings. -/
def splitQuotedFrom (delimiter : UInt8) : (quoted escaped : Bool) → Bytes → Option (List Bytes)
  | quoted, escaped, [] => if quoted || escaped then none else some [[]]
  | quoted, true, byte :: rest =>
    (splitQuotedFrom delimiter quoted false rest).map (List.modifyHead (byte :: ·))
  | quoted, false, byte :: rest =>
    if quoted && byte == 92 then
      (splitQuotedFrom delimiter quoted true rest).map (List.modifyHead (byte :: ·))
    else if byte == 34 then
      (splitQuotedFrom delimiter (!quoted) false rest).map (List.modifyHead (byte :: ·))
    else if byte == delimiter && !quoted then
      (splitQuotedFrom delimiter quoted false rest).map ([] :: ·)
    else (splitQuotedFrom delimiter quoted false rest).map (List.modifyHead (byte :: ·))

def splitQuoted (value : Bytes) (delimiter : UInt8) : Except IngressError (List Bytes) :=
  match splitQuotedFrom delimiter false false value with
  | some fields => .ok fields
  | none => .error .badRequest

def quotedOctet (byte : UInt8) : Bool :=
  byte == 9 || byte == 32 || (0x21 ≤ byte && byte ≤ 0x7E) || 0x80 ≤ byte

/-- The inside of a quoted string. -/
def validQuotedFrom : (escaped : Bool) → Bytes → Bool
  | escaped, [] => !escaped
  | true, byte :: rest => quotedOctet byte && validQuotedFrom false rest
  | false, byte :: rest =>
    if byte == 92 then validQuotedFrom true rest
    else byte != 34 && quotedOctet byte && validQuotedFrom false rest

def validParameterValue (value : Bytes) : Bool :=
  validToken value ||
    ((stripPrefix [34] value).bind (stripSuffix [34])).any (validQuotedFrom false)

def transferCodingName (value : Bytes) : Bytes := trimOws ((value.splitOn 59).headD [])

def validTransferCoding (value : Bytes) : Bool :=
  match splitQuoted value 59 with
  | .error _ => false
  | .ok parts =>
    validToken (trimOws (parts.headD [])) && parts.tail.all fun parameter =>
      match splitQuoted (trimOws parameter) 61 with
      | .ok [name, value] => validToken (trimOws name) && validParameterValue (trimOws value)
      | _ => false

/-! ## Fields -/

def appendFieldLine (headers : HeaderMap) (line : Bytes) : Except IngressError HeaderMap :=
  if line.head?.any isOws then .error .badRequest
  else match splitOnce 58 line with
    | none => .error .badRequest
    | some (name, value) =>
      if name.isEmpty || name.getLast?.any Ascii.isWhitespace then .error .badRequest
      else
        let value := trimOws value
        if value.any fun byte => (byte < 0x20 && byte != 9) || byte == 0x7F then .error .badRequest
        else match HeaderName.fromBytes name, HeaderValue.fromBytes value with
          | some name, some value => .ok (headers.append name value)
          | _, _ => .error .badRequest

/-- The fields on the lines of a section, whose last line is empty when there is one. -/
def parseFieldLines (headers : HeaderMap) : List Bytes → Except IngressError HeaderMap
  | [] => .ok headers
  | line :: rest =>
    if line.isEmpty then (if rest.isEmpty then .ok headers else .error .badRequest)
    else do parseFieldLines (← appendFieldLine headers line) rest

def parseFields (fields : Bytes) : Except IngressError HeaderMap :=
  if (stripSuffix crlf fields).isNone then .error .badRequest
  else parseFieldLines .empty (crlfLines fields).1

/-- The members of a list of tokens. -/
def commaTokens (headers : HeaderMap) (name : HeaderName) : Except IngressError (List Bytes) :=
  let tokens := (headers.getAll name).flatMap fun value => (value.asBytes.splitOn 44).map trimOws
  if tokens.all validToken then .ok tokens else .error .badRequest

/-- The length that every member of every `Content-Length` value agrees on. -/
def parseContentLengthMembers (parsed : Option ℕ) : List Bytes → Except IngressError (Option ℕ)
  | [] => .ok parsed
  | member :: rest =>
    if member.isEmpty || !member.all Ascii.isDigit then .error .badRequest
    else match Numerals.checkedValue 10 (2 ^ 64 - 1) member with
      | none => .error .badRequest
      | some length =>
        if parsed.any (· != length) then .error .badRequest
        else parseContentLengthMembers (some length) rest

def parseContentLength (headers : HeaderMap) : Except IngressError (Option ℕ) :=
  parseContentLengthMembers none <|
    (headers.getAll .contentLength).flatMap fun value => (value.asBytes.splitOn 44).map trimOws

/-- The members of every `Transfer-Encoding` value. -/
def transferCodings (headers : HeaderMap) : Except IngressError (List Bytes) := do
  let members ← (headers.getAll .transferEncoding).mapM fun value => splitQuoted value.asBytes 44
  return members.flatten.map trimOws

def isChunked (value : Bytes) : Bool := eqIgnoreCase (transferCodingName value) (ascii "chunked")

def parseTransferEncoding (headers : HeaderMap) : Except IngressError Bool := do
  let values ← transferCodings headers
  if values.isEmpty then return false
  if values.any (!validTransferCoding ·) || !values.getLast?.any isChunked ||
      values.dropLast.any isChunked ||
      values.any (fun value => isChunked value && value.contains 59) then
    throw .badRequest
  return true

end Vhrn.Proxy
