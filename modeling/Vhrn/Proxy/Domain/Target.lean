import Vhrn.Proxy.Domain.Names

/-!
# Request targets

Classification of a raw request target, from the octets on the request line to a canonical
destination. Loopback authorities and every other host are separate types of destination:
`LoopbackHost` carries the proof that its address is in 127.0.0.0/8, and a port is never zero.
-/

namespace Vhrn.Proxy

/-- The text of a request method. -/
abbrev Method := Bytes

namespace Method

def connect : Method := ascii "CONNECT"

def head : Method := ascii "HEAD"

def get : Method := ascii "GET"

def options : Method := ascii "OPTIONS"

end Method

/-! ## Loopback authorities -/

inductive AuthorityParseError
  | invalidHost
  | missingPort
  | invalidPort
  | nonLoopback
  deriving DecidableEq, Repr

def AuthorityParseError.display : AuthorityParseError → Bytes
  | .invalidHost => ascii "invalid authority host"
  | .missingPort => ascii "authority is missing a port"
  | .invalidPort => ascii "authority has an invalid port"
  | .nonLoopback => ascii "authority is not loopback"

/-- A port that a connection can be made to. -/
structure Port where
  number : UInt16
  nonzero : number ≠ 0
  deriving DecidableEq, Repr

def Port.display (port : Port) : Bytes := Numerals.decimal port.number.toNat

inductive LoopbackHost
  | localhost
  | ipv4 (octets : Octets) (loopback : octets.a = 127)
  | ipv6Loopback
  deriving DecidableEq, Repr

structure LoopbackAuthority where
  host : LoopbackHost
  port : Port
  deriving DecidableEq, Repr

def LoopbackHost.display : LoopbackHost → Bytes
  | .localhost => ascii "localhost"
  | .ipv4 octets _ => octets.display
  | .ipv6Loopback => ascii "[::1]"

def LoopbackAuthority.display (authority : LoopbackAuthority) : Bytes :=
  authority.host.display ++ 58 :: authority.port.display

def parseIpv4Octet (part : Bytes) : Option UInt8 :=
  if part.isEmpty || !part.all Ascii.isDigit || (decide (1 < part.length) && part.head? == some 48)
  then none
  else (Numerals.checkedValue 10 255 part).map UInt8.ofNat

def parseIpv4 (value : Bytes) : Option Octets :=
  match value.splitOn 46 with
  | [a, b, c, d] => do
    return ⟨← parseIpv4Octet a, ← parseIpv4Octet b, ← parseIpv4Octet c, ← parseIpv4Octet d⟩
  | _ => none

def parsePort (value : Bytes) : Except AuthorityParseError Port :=
  if value.isEmpty then .error .missingPort
  else if !value.all Ascii.isDigit then .error .invalidPort
  else match Numerals.checkedValue 10 65535 value with
    | none => .error .invalidPort
    | some n => if h : UInt16.ofNat n ≠ 0 then .ok ⟨.ofNat n, h⟩ else .error .invalidPort

def LoopbackAuthority.fromStr (input : Bytes) : Except AuthorityParseError LoopbackAuthority :=
  if input.isEmpty || trim input != input || !isAscii input then .error .invalidHost
  else match rsplitOnce 58 input with
    | none => .error .missingPort
    | some (host, port) => do
      let port ← parsePort port
      if eqIgnoreCase host (ascii "localhost") then return ⟨.localhost, port⟩
      match (stripPrefix [91] host).bind (stripSuffix [93]) with
      | some value =>
        match Ipv6Addr.fromStr value with
        | none => throw .invalidHost
        | some address =>
          if !address.isLoopback then throw .nonLoopback
          else return ⟨.ipv6Loopback, port⟩
      | none =>
        match parseIpv4 host with
        | some octets =>
          if h : octets.a = 127 then return ⟨.ipv4 octets h, port⟩
          else throw .nonLoopback
        | none => throw .invalidHost

/-! ## Targets -/

inductive PublicHost
  | dns (name : DomainName)
  | ip (address : IpAddr)
  deriving DecidableEq

def PublicHost.display : PublicHost → Bytes
  | .dns name => name.display
  | .ip address => address.display

structure DirectTarget where
  pathAndQuery : Bytes
  deriving DecidableEq

structure PublicTarget where
  authority : Bytes
  host : PublicHost
  ipv6Scope : Option Bytes
  port : Port
  explicitPort : Bool
  pathAndQuery : Bytes
  deriving DecidableEq

structure LocalTarget where
  canonicalAuthority : LoopbackAuthority
  explicitPort : Bool
  pathAndQuery : Bytes
  deriving DecidableEq

inductive Target
  | direct (target : DirectTarget)
  | asterisk
  | publicHttp (target : PublicTarget)
  | localHttp (target : LocalTarget)
  | publicConnect (target : PublicTarget)
  | localConnect (target : LocalTarget)
  | httpsAbsoluteRejected
  | malformed
  deriving DecidableEq

def PublicTarget.hasIpv6Scope (target : PublicTarget) : Bool := target.ipv6Scope.isSome

inductive RequestKind
  | http
  | connect
  deriving DecidableEq

inductive AbsoluteScheme
  | http
  | https
  deriving DecidableEq

/-! ## Request-target octets -/

def uriOctet (byte : UInt8) : Bool :=
  Ascii.isAlnum byte ||
    [33, 36, 38, 39, 40, 41, 42, 43, 44, 45, 46, 47, 58, 59, 61, 63, 64, 95, 126, 91, 93].contains
      byte

/-- URI octets, with every percent sign followed by two hexadecimal digits. -/
def validUriOctets : Bytes → Bool
  | [] => true
  | byte :: rest =>
    if byte = 37 then
      match rest with
      | c :: d :: rest => Ascii.isHexDigit c && Ascii.isHexDigit d && validUriOctets rest
      | _ => false
    else uriOctet byte && validUriOctets rest

def validPathAndQuery (value : Bytes) : Bool :=
  !value.contains 35 && !value.contains 91 && !value.contains 93 && validUriOctets value

def validAbsolutePathAndQuery (value : Bytes) : Bool :=
  (value.head? == some 47 || value.head? == some 63) && validPathAndQuery value

/-- White space, control octets and the octets that end or precede an authority. -/
def authorityBreak (byte : UInt8) : Bool :=
  Ascii.isWhitespace byte || Ascii.isControl byte || byte == 47 || byte == 63 || byte == 35 ||
    byte == 64

/-! ## Authorities -/

inductive ParsedHost
  | localHost (host : LoopbackHost)
  | publicHost (host : PublicHost)

structure ParsedAuthority where
  host : ParsedHost
  ipv6Scope : Option Bytes
  port : Port
  explicitPort : Bool

def parseAuthorityPort (suffix : Bytes) (defaultPort : Option Port) (portRequired : Bool) :
    Option (Port × Bool) :=
  match stripPrefix [58] suffix with
  | some port => (parsePort port).toOption.map (·, true)
  | none => if suffix.isEmpty && !portRequired then defaultPort.map (·, false) else none

def zoneOctet (byte : UInt8) : Bool :=
  Ascii.isAlnum byte || byte == 45 || byte == 46 || byte == 95 || byte == 126

def parseIpv6Host (host : Bytes) : Option (Ipv6Addr × Option Bytes) :=
  match splitOnceSeq (ascii "%25") host with
  | none => (Ipv6Addr.fromStr host).map (·, none)
  | some (address, zone) =>
    if zone.isEmpty || zone.contains 37 || !zone.all zoneOctet then none
    else (Ipv6Addr.fromStr address).map (·, some zone)

/-- A bracketed authority, after its opening bracket. -/
def parseBracketed (value : Bytes) (defaultPort : Option Port) (portRequired : Bool) :
    Option ParsedAuthority := do
  let (host, suffix) ← splitOnce 93 value
  let (port, explicitPort) ← parseAuthorityPort suffix defaultPort portRequired
  let (address, ipv6Scope) ← parseIpv6Host host
  let host : ParsedHost :=
    if ipv6Scope.isNone && address.isLoopback then .localHost .ipv6Loopback
    else .publicHost (.ip (.v6 address))
  return { host, ipv6Scope, port, explicitPort }

/-- The host of an authority without brackets. -/
def parseRegName (host : Bytes) : Option ParsedHost :=
  match parseIpv4 host with
  | some octets =>
    if h : octets.a = 127 then some (.localHost (.ipv4 octets h))
    else some (.publicHost (.ip (.v4 (.ofOctets octets))))
  | none =>
    if host.all fun byte => Ascii.isDigit byte || byte == 46 then none
    else (DomainName.fromStr host).map fun domain =>
      if domain.display = ascii "localhost" then .localHost .localhost else .publicHost (.dns domain)

/-- The port of an authority without brackets, from what follows the last colon. -/
def parsePortSuffix (suffix : Option Bytes) (defaultPort : Option Port) (portRequired : Bool) :
    Option (Port × Bool) :=
  match suffix with
  | some port => (parsePort port).toOption.map (·, true)
  | none => if portRequired then none else defaultPort.map (·, false)

/-- The host of an authority without brackets and what follows its last colon. -/
def splitHostPort (value : Bytes) : Bytes × Option Bytes :=
  match rsplitOnce 58 value with
  | some (host, port) => (host, some port)
  | none => (value, none)

def parseUnbracketed (value : Bytes) (defaultPort : Option Port) (portRequired : Bool) :
    Option ParsedAuthority := do
  let (port, explicitPort) ← parsePortSuffix (splitHostPort value).2 defaultPort portRequired
  let host ← (if (splitHostPort value).1.isEmpty then none
    else parseRegName (splitHostPort value).1)
  return { host, ipv6Scope := none, port, explicitPort }

def parseAuthority (value : Bytes) (defaultPort : Option Port) (portRequired : Bool) :
    Option ParsedAuthority :=
  if value.isEmpty || !isAscii value || value.any authorityBreak then none
  else match stripPrefix [91] value with
    | some value => parseBracketed value defaultPort portRequired
    | none =>
      if value.contains 91 || value.contains 93 || decide (1 < value.count 58) then none
      else parseUnbracketed value defaultPort portRequired

def canonicalPublicAuthority (host : PublicHost) (ipv6Scope : Option Bytes) (port : Port)
    (explicitPort : Bool) : Bytes :=
  let host := match host with
    | .dns name => name.display
    | .ip (.v4 address) => address.display
    | .ip (.v6 address) =>
      match ipv6Scope with
      | none => 91 :: (address.display ++ [93])
      | some zone => 91 :: (address.display ++ ascii "%25" ++ zone ++ [93])
  if explicitPort then host ++ 58 :: port.display else host

def AbsoluteScheme.defaultPort : AbsoluteScheme → Port
  | .http => ⟨80, by decide⟩
  | .https => ⟨443, by decide⟩

def classifyAuthority (value : Bytes) (scheme : Option AbsoluteScheme) (kind : RequestKind)
    (pathAndQuery : Bytes) : Target :=
  match parseAuthority value (scheme.map AbsoluteScheme.defaultPort) (kind == .connect) with
  | none => .malformed
  | some parsed =>
    if scheme = some .https then .httpsAbsoluteRejected
    else match parsed.host with
      | .localHost host =>
        let target : LocalTarget :=
          { canonicalAuthority := { host, port := parsed.port }
            explicitPort := parsed.explicitPort
            pathAndQuery }
        match kind with
        | .http => .localHttp target
        | .connect => .localConnect target
      | .publicHost host =>
        let target : PublicTarget :=
          { authority := canonicalPublicAuthority host parsed.ipv6Scope parsed.port
              parsed.explicitPort
            host
            ipv6Scope := parsed.ipv6Scope
            port := parsed.port
            explicitPort := parsed.explicitPort
            pathAndQuery }
        match kind with
        | .http => .publicHttp target
        | .connect => .publicConnect target

/-! ## Classification -/

def classifyConnect (rawTarget : Bytes) : Target :=
  match fromUtf8 rawTarget with
  | none => .malformed
  | some authority =>
    if authority.isEmpty || authority.any authorityBreak then .malformed
    else classifyAuthority authority none .connect []

def schemeOctet (byte : UInt8) : Bool :=
  Ascii.isAlnum byte || byte == 43 || byte == 45 || byte == 46

def parseScheme (scheme : Bytes) : Option AbsoluteScheme :=
  if !(scheme.head?.any Ascii.isAlpha) || !scheme.all schemeOctet then none
  else if eqIgnoreCase scheme (ascii "http") then some .http
  else if eqIgnoreCase scheme (ascii "https") then some .https
  else none

/-- An octet that ends the authority of an absolute target. -/
def endsAuthority (byte : UInt8) : Bool := byte == 47 || byte == 63

/-- The scheme, authority and path of an absolute target, each as it is written. -/
def splitAbsolute (rawTarget : Bytes) : Option (AbsoluteScheme × Bytes × Bytes) := do
  let (scheme, remainder) ← splitOnce 58 rawTarget
  let scheme ← parseScheme scheme
  let remainder ← stripPrefix [47, 47] remainder
  return (scheme, remainder.takeWhile (!endsAuthority ·), remainder.dropWhile (!endsAuthority ·))

def classifyAbsolute (rawTarget : Bytes) : Target :=
  if !validUriOctets rawTarget || rawTarget.contains 35 then .malformed
  else match splitAbsolute rawTarget with
    | none => .malformed
    | some (scheme, authority, pathAndQuery) =>
      match fromUtf8 authority with
      | none => .malformed
      | some authority =>
        if authority.isEmpty || (!pathAndQuery.isEmpty && !validAbsolutePathAndQuery pathAndQuery)
        then .malformed
        else classifyAuthority authority (some scheme) .http pathAndQuery

/-- Parses one request target from the octets on the request line. -/
def classify (method : Method) (rawTarget : Bytes) : Target :=
  if method = Method.connect then classifyConnect rawTarget
  else if rawTarget = [42] then .asterisk
  else if rawTarget.head? = some 47 then
    if validPathAndQuery rawTarget then .direct ⟨rawTarget⟩ else .malformed
  else classifyAbsolute rawTarget

end Vhrn.Proxy
