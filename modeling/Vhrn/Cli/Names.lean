import Vhrn.Proxy.Domain.LivePolicy

/-!
# Policy entries of the command line

The command line normalises the names and loopback authorities it is given before it stores them, with
validators of its own. A normalised name is a `PolicyName`. The two results that tie it to the proxy,
which shares no code with it, are `PolicyName.isPolicyEntry` and `LoopbackAuthority.parse_eq`: what
the command line accepts, the proxy's strict parsers accept with the same meaning.
-/

namespace Vhrn.Cli

open Proxy (labels validPolicyDomain Port parsePort)

/-! ## Domains -/

def policyByte (byte : UInt8) : Bool :=
  Ascii.isAlnum byte || byte == 45 || byte == 95 || byte == 46

/-- What the command line requires of a name after it is put in lower case. -/
def storedDomain (value : Bytes) : Bool :=
  isAscii value && !value.isEmpty && !(labels value).any List.isEmpty && value.all policyByte &&
    value.any Ascii.isAlnum

/-- A normalised policy name. -/
structure PolicyName where
  text : Bytes
  stored : storedDomain text = true
  lowercase : lower text = text

theorem PolicyName.ext {x y : PolicyName} (h : x.text = y.text) : x = y := by
  cases x
  cases y
  cases h
  rfl

instance : DecidableEq PolicyName := fun x y =>
  decidable_of_iff (x.text = y.text) ⟨PolicyName.ext, congrArg PolicyName.text⟩

def normalizePolicyDomain (value : Bytes) : Option PolicyName :=
  if !isAscii value then none
  else if h : storedDomain (lower value) = true then some ⟨lower value, h, lower_lower value⟩
  else none

/-- The text without surrounding white space, a leading wildcard label and surrounding dots. -/
def bareDomain (input : Bytes) : Bytes :=
  trimBy (· == 46) ((stripPrefix [42, 46] (trim input)).getD (trim input))

def normalizeDomainEntry (input : Bytes) : Option PolicyName := normalizePolicyDomain (bareDomain input)

/-- The kinds of file errors that are told apart. -/
inductive IoError
  | notFound
  | other
  deriving DecidableEq

/-- What the command line uses from outside: the conversion of internationalised names to ASCII, the
hexadecimal digest of a path, the table of harnesses with the domains each of them allows, and the error
of an atomic replacement of a file by new contents, when it fails. -/
class Host where
  domainToAscii : Bytes → Option Bytes
  keyForBytes : Bytes → Bytes
  harnesses : List (Bytes × List Bytes)
  replaceError : Bytes → Bytes → Option IoError

inductive InputError
  | notAscii (suggestion : Option Bytes)
  | invalidDomain (input : Bytes)
  | invalidAuthority (input : Bytes)
  | notAllowed (missing : List Bytes)
  | notUtf8
  deriving DecidableEq

/-- Normalises a host name of a user. -/
def normalizeDomain [Host] (input : Bytes) : Except InputError PolicyName :=
  let value := bareDomain input
  if !isAscii value then
    .error <| .notAscii <| (Host.domainToAscii value).filter fun value =>
      (normalizeDomainEntry value).isSome
  else match normalizeDomainEntry input with
    | some name => .ok name
    | none => .error (.invalidDomain input)

/-- Appends what is not yet there. -/
def pushNew {α : Type} [DecidableEq α] (result : List α) (value : α) : List α :=
  if value ∈ result then result else result ++ [value]

theorem mem_pushNew {α : Type} [DecidableEq α] {result : List α} {value x : α} :
    x ∈ pushNew result value ↔ x ∈ result ∨ x = value := by
  unfold pushNew
  split
  · rename_i h
    refine ⟨.inl, ?_⟩
    rintro (hx | rfl)
    · exact hx
    · exact h
  · simp

theorem mem_foldl_pushNew {α : Type} [DecidableEq α] {values result : List α} {x : α} :
    x ∈ values.foldl pushNew result ↔ x ∈ result ∨ x ∈ values := by
  induction values generalizing result with
  | nil => simp
  | cons value values ih => rw [List.foldl_cons, ih, mem_pushNew, List.mem_cons, or_assoc]

/-- The normalised values, each once and in order of appearance. -/
def normalizeAll {α : Type} [DecidableEq α] (normalize : Bytes → Except InputError α)
    (inputs : List Bytes) : Except InputError (List α) :=
  (inputs.mapM normalize).map (List.foldl pushNew [])

def normalizeDomains [Host] (domains : List Bytes) : Except InputError (List PolicyName) :=
  normalizeAll normalizeDomain domains

/-! ## Loopback authorities -/

inductive LoopbackHost
  | localhost
  | ipv4 (octets : Octets) (loopback : octets.a = 127)
  | ipv6Loopback
  deriving Repr

instance : DecidableEq LoopbackHost
  | .localhost, .localhost => isTrue rfl
  | .ipv6Loopback, .ipv6Loopback => isTrue rfl
  | .ipv4 octets _, .ipv4 octets' _ =>
    decidable_of_iff (octets = octets') ⟨by rintro rfl; rfl, LoopbackHost.ipv4.inj⟩
  | .localhost, .ipv4 .. => isFalse nofun
  | .localhost, .ipv6Loopback => isFalse nofun
  | .ipv4 .., .localhost => isFalse nofun
  | .ipv4 .., .ipv6Loopback => isFalse nofun
  | .ipv6Loopback, .localhost => isFalse nofun
  | .ipv6Loopback, .ipv4 .. => isFalse nofun

structure LoopbackAuthority where
  host : LoopbackHost
  port : Port
  deriving DecidableEq, Repr

def parsePolicyPort (value : Bytes) : Option Port :=
  if !value.isEmpty && value.all Ascii.isDigit then
    (Numerals.checkedValue 10 65535 value).bind fun n =>
      if h : UInt16.ofNat n ≠ 0 then some ⟨.ofNat n, h⟩ else none
  else none

def parseLoopbackOctet (part : Bytes) : Option UInt8 :=
  if part.isEmpty || !part.all Ascii.isDigit || (decide (1 < part.length) && part.head? == some 48)
  then none
  else (Numerals.checkedValue 10 255 part).map UInt8.ofNat

def parseLoopbackIpv4 (value : Bytes) : Option LoopbackHost :=
  match value.splitOn 46 with
  | [a, b, c, d] => do
    let octets : Octets :=
      ⟨← parseLoopbackOctet a, ← parseLoopbackOctet b, ← parseLoopbackOctet c,
        ← parseLoopbackOctet d⟩
    if h : octets.a = 127 then return .ipv4 octets h else none
  | _ => none

def LoopbackAuthority.parse (input : Bytes) : Option LoopbackAuthority :=
  if input.isEmpty || trim input != input || !isAscii input then none
  else do
    let (host, port) ← rsplitOnce 58 input
    let port ← parsePolicyPort port
    if eqIgnoreCase host (ascii "localhost") then return ⟨.localhost, port⟩
    match (stripPrefix [91] host).bind (stripSuffix [93]) with
    | some ipv6 =>
      let ipv6 ← Ipv6Addr.fromStr ipv6
      if !ipv6.isLoopback then none else return ⟨.ipv6Loopback, port⟩
    | none => return ⟨← parseLoopbackIpv4 host, port⟩

def LoopbackAuthority.display (authority : LoopbackAuthority) : Bytes :=
  (match authority.host with
    | .localhost => ascii "localhost"
    | .ipv4 octets _ => octets.display
    | .ipv6Loopback => ascii "[::1]") ++ 58 :: authority.port.display

def parseAuthority (input : Bytes) : Except InputError LoopbackAuthority :=
  match LoopbackAuthority.parse input with
  | some authority => .ok authority
  | none => .error (.invalidAuthority input)

def normalizeLoopbackAuthorities (authorities : List Bytes) :
    Except InputError (List LoopbackAuthority) :=
  normalizeAll parseAuthority authorities

/-! ## The same texts as the proxy -/

theorem storedDomain_valid {value : Bytes} (h : storedDomain value = true)
    (hl : lower value = value) : validPolicyDomain value = true := by
  simp only [storedDomain, Bool.and_eq_true] at h
  obtain ⟨⟨⟨⟨hascii, hne⟩, hlabels⟩, hbytes⟩, halnum⟩ := h
  have hupper (b : UInt8) : Ascii.isUpper (Ascii.toLower b) = false := Ascii.isUpper_toLower b
  have hbyte (b : UInt8) : policyByte b = true → Ascii.isUpper b = false →
      Proxy.validPolicyByte b = true := by
    revert b; exact forall_byte (by decide +kernel)
  simp only [validPolicyDomain, hascii, hne, halnum, Bool.true_and, Bool.and_true, Bool.and_eq_true]
  refine ⟨?_, List.all_eq_true.mpr fun b hb => hbyte b (List.all_eq_true.mp hbytes b hb) ?_⟩
  · rw [List.all_eq_true]
    intro label hlabel
    rw [Bool.not_eq_true', List.any_eq_false] at hlabels
    simpa using hlabels label hlabel
  · rw [← hl, lower, List.mem_map] at hb
    obtain ⟨c, -, rfl⟩ := hb
    exact hupper c

/-- **Every normalised name is a policy entry of the proxy.** -/
theorem PolicyName.valid (name : PolicyName) : validPolicyDomain name.text = true :=
  storedDomain_valid name.stored name.lowercase

theorem bareDomain_of_valid {value : Bytes} (h : validPolicyDomain value = true) :
    bareDomain value = value := by
  rw [bareDomain, Proxy.trim_policyDomain h, Proxy.stripPrefix_policyDomain h, Option.getD_none,
    Proxy.trimBy_policyDomain h]

/-- A normalised name is stored as it is. -/
theorem normalizeDomain_text [Host] (name : PolicyName) : normalizeDomain name.text = .ok name := by
  have hv := name.valid
  have hascii : isAscii name.text = true := by
    simp only [validPolicyDomain, Bool.and_eq_true] at hv
    exact hv.1.1.1.1
  have hentry : normalizeDomainEntry name.text = some name := by
    unfold normalizeDomainEntry normalizePolicyDomain
    rw [bareDomain_of_valid hv, hascii]
    simp only [name.lowercase, name.stored, Bool.not_true, Bool.false_eq_true, ↓reduceIte,
      ↓reduceDIte]
  unfold normalizeDomain
  simp only [bareDomain_of_valid hv, hascii, hentry, Bool.not_true, Bool.false_eq_true, ↓reduceIte]

theorem parsePolicyPort_eq (value : Bytes) :
    parsePolicyPort value = (parsePort value).toOption := by
  unfold parsePolicyPort parsePort
  cases hempty : value.isEmpty with
  | true => rfl
  | false =>
    cases hdigit : value.all Ascii.isDigit with
    | false => rfl
    | true =>
      simp only [Bool.not_false, Bool.and_self, ↓reduceIte, Bool.not_true, Bool.false_eq_true]
      cases Numerals.checkedValue 10 65535 value with
      | none => rfl
      | some n =>
        by_cases h : UInt16.ofNat n ≠ 0
        · simp [h, Except.toOption]
        · simp [h, Except.toOption]

/-- The proxy's authority of the same text. -/
def LoopbackAuthority.toProxy (authority : LoopbackAuthority) : Proxy.LoopbackAuthority :=
  { host := match authority.host with
      | .localhost => .localhost
      | .ipv4 octets loopback => .ipv4 octets loopback
      | .ipv6Loopback => .ipv6Loopback
    port := authority.port }

theorem LoopbackAuthority.display_toProxy (authority : LoopbackAuthority) :
    authority.toProxy.display = authority.display := by
  rcases authority with ⟨host, port⟩
  cases host <;> rfl

theorem LoopbackAuthority.toProxy_injective : Function.Injective LoopbackAuthority.toProxy := by
  rintro ⟨host, port⟩ ⟨host', port'⟩ h
  obtain ⟨hhost, rfl⟩ := Proxy.LoopbackAuthority.mk.inj h
  cases host <;> cases host' <;> simp_all

theorem parseLoopbackIpv4_eq (value : Bytes) :
    parseLoopbackIpv4 value = (Proxy.parseIpv4 value).bind fun octets =>
      if h : octets.a = 127 then some (.ipv4 octets h) else none := by
  have hoctet : parseLoopbackOctet = Proxy.parseIpv4Octet := rfl
  unfold parseLoopbackIpv4 Proxy.parseIpv4
  rw [hoctet]
  rcases value.splitOn 46 with _ | ⟨a, _ | ⟨b, _ | ⟨c, _ | ⟨d, _ | ⟨e, rest⟩⟩⟩⟩⟩
  case cons.cons.cons.cons.nil =>
    cases ha : Proxy.parseIpv4Octet a <;> cases hb : Proxy.parseIpv4Octet b <;>
      cases hc : Proxy.parseIpv4Octet c <;> cases hd : Proxy.parseIpv4Octet d <;>
      simp only [ha, hb, hc, hd, bind, pure, Option.bind_some, Option.bind_none]
  all_goals rfl

theorem parsePort_cases (value : Bytes) :
    (∃ port, parsePolicyPort value = some port ∧ parsePort value = .ok port) ∨
      (parsePolicyPort value = none ∧ ∃ error, parsePort value = .error error) := by
  rw [parsePolicyPort_eq]
  cases parsePort value with
  | ok port => exact .inl ⟨port, rfl, rfl⟩
  | error error => exact .inr ⟨rfl, error, rfl⟩

/-- **The command line and the proxy read the same loopback authorities.** -/
theorem LoopbackAuthority.parse_eq (input : Bytes) :
    (LoopbackAuthority.parse input).map LoopbackAuthority.toProxy =
      (Proxy.LoopbackAuthority.fromStr input).toOption := by
  unfold LoopbackAuthority.parse Proxy.LoopbackAuthority.fromStr
  split
  · rfl
  · cases rsplitOnce 58 input with
    | none => rfl
    | some parts =>
      rcases parts with ⟨host, text⟩
      simp only [bind, Option.bind_some]
      rcases parsePort_cases text with ⟨port, hcli, hproxy⟩ | ⟨hcli, error, hproxy⟩
      · rw [hcli, hproxy]
        simp only [Option.bind_some, Except.bind, pure]
        split
        · rfl
        · cases (stripPrefix [91] host).bind (stripSuffix [93]) with
          | some value =>
            simp only
            cases Ipv6Addr.fromStr value with
            | none => rfl
            | some address =>
              simp only [Option.bind_some]
              cases address.isLoopback <;> rfl
          | none =>
            simp only [parseLoopbackIpv4_eq]
            cases Proxy.parseIpv4 host with
            | none => rfl
            | some octets =>
              simp only [Option.bind_some]
              by_cases h : octets.a = 127
              · simp only [h, ↓reduceDIte]
                rfl
              · simp only [h, ↓reduceDIte]
                rfl
      · rw [hcli, hproxy]
        rfl

theorem LoopbackAuthority.parse_display (authority : LoopbackAuthority) :
    LoopbackAuthority.parse authority.display = some authority := by
  have h := LoopbackAuthority.parse_eq authority.display
  rw [← LoopbackAuthority.display_toProxy, Proxy.LoopbackAuthority.fromStr_display] at h
  obtain ⟨authority', h', heq⟩ := Option.map_eq_some_iff.mp h
  rw [← LoopbackAuthority.display_toProxy, h', LoopbackAuthority.toProxy_injective heq]

end Vhrn.Cli
