import Vhrn.Foundations.NetText
import Vhrn.Proxy.Domain.Loopback

/-!
# Canonical authorities

What the host of an authority denotes does not depend on its case, on a root dot or on the spelling of
an address (`Denotes`), and the parser returns what the text denotes (`parseAuthority_denotes`). The
canonical text of a parsed authority is parsed to the same host, scope and port
(`parseAuthority_authorityText`).
-/

namespace Vhrn.Proxy

/-! ## What a host denotes -/

/-- Digits and dots only, as in an IPv4 address. -/
def Numeric (text : Bytes) : Prop := text.all (fun byte => Ascii.isDigit byte || byte == 46) = true

instance : DecidablePred Numeric := fun text =>
  inferInstanceAs (Decidable (text.all (fun byte => Ascii.isDigit byte || byte == 46) = true))

/-- A name without one root dot. -/
def unrooted (text : Bytes) : Bytes := (stripSuffix [46] text).getD text

/-- A DNS name in lower case and without a root dot, or an address with its scope. -/
inductive HostMeaning
  | name (text : Bytes)
  | ipv4 (octets : Octets)
  | ipv6 (address : Ipv6Addr) (scope : Option Bytes)
  deriving DecidableEq

/-- What the host of an authority denotes, brackets included in the text. -/
inductive Denotes : Bytes → HostMeaning → Prop
  | name {text : Bytes} (hbracket : (91 : UInt8) ∉ text) (h : ¬ Numeric text) :
      Denotes text (.name (lower (unrooted text)))
  | ipv4 {a b c d : Bytes} {o : Octets} (ha : SpellsOctet a o.a) (hb : SpellsOctet b o.b)
      (hc : SpellsOctet c o.c) (hd : SpellsOctet d o.d) :
      Denotes (a ++ 46 :: (b ++ 46 :: (c ++ 46 :: d))) (.ipv4 o)
  | ipv6 {text : Bytes} {x : Ipv6Addr} (h : Ipv6Addr.fromStr text = some x) :
      Denotes (91 :: (text ++ [93])) (.ipv6 x none)
  | zoned {text zone : Bytes} {x : Ipv6Addr} (h : Ipv6Addr.fromStr text = some x) :
      Denotes (91 :: (text ++ ascii "%25" ++ zone ++ [93])) (.ipv6 x (some zone))

/-- A numeric text denotes an IPv4 address only. -/
theorem Denotes.of_numeric {text : Bytes} {m : HostMeaning} (h : Denotes text m)
    (hall : Numeric text) : ∃ a b c d o, text = a ++ 46 :: (b ++ 46 :: (c ++ 46 :: d)) ∧
      SpellsOctet a o.a ∧ SpellsOctet b o.b ∧ SpellsOctet c o.c ∧ SpellsOctet d o.d ∧ m = .ipv4 o := by
  cases h with
  | name _ hnot => exact absurd hall hnot
  | ipv4 ha hb hc hd => exact ⟨_, _, _, _, _, rfl, ha, hb, hc, hd, rfl⟩
  | ipv6 h => exact absurd (List.all_eq_true.mp hall 91 List.mem_cons_self) (by decide)
  | zoned h => exact absurd (List.all_eq_true.mp hall 91 List.mem_cons_self) (by decide)

/-- A text in brackets denotes an IPv6 address only. -/
theorem Denotes.of_bracket {text : Bytes} {m : HostMeaning} (h : Denotes (91 :: text) m) :
    ∃ inner x, text = inner ++ [93] ∧ ((Ipv6Addr.fromStr inner = some x ∧ m = .ipv6 x none) ∨
      ∃ address zone, inner = address ++ ascii "%25" ++ zone ∧ Ipv6Addr.fromStr address = some x ∧
        m = .ipv6 x (some zone)) := by
  generalize ht : (91 :: text : Bytes) = t at h
  cases h with
  | name hbracket _ =>
    subst ht
    exact absurd List.mem_cons_self hbracket
  | ipv4 ha hb hc hd =>
    rename_i a b c d o
    obtain ⟨x, rest, rfl⟩ := List.exists_cons_of_ne_nil ha.1
    have hdigit := List.all_eq_true.mp ha.2.1 x List.mem_cons_self
    rw [← (List.cons.inj ht).1] at hdigit
    exact absurd hdigit (by decide)
  | ipv6 h => exact ⟨_, _, (List.cons.inj ht).2, .inl ⟨h, rfl⟩⟩
  | zoned h => exact ⟨_, _, (List.cons.inj ht).2, .inr ⟨_, _, rfl, h, rfl⟩⟩

theorem not_percent_of_fromStr {text : Bytes} {x : Ipv6Addr} (h : Ipv6Addr.fromStr text = some x) :
    (37 : UInt8) ∉ text := fun hmem => absurd (Ipv6Addr.fromStr_byte h hmem) (by decide)

/-- **A text denotes at most one host.** -/
theorem Denotes.unique {text : Bytes} {m m' : HostMeaning} (h : Denotes text m)
    (h' : Denotes text m') : m = m' := by
  have hzone : ascii "%25" = 37 :: ascii "25" := by decide
  by_cases hall : Numeric text
  · obtain ⟨a, b, c, d, o, rfl, ha, hb, hc, hd, rfl⟩ := h.of_numeric hall
    obtain ⟨a', b', c', d', o', heq, ha', hb', hc', hd', rfl⟩ := h'.of_numeric hall
    have hsplit := congrArg (List.splitOn 46) heq
    rw [splitOn_quad (not_dot_of_all_digit ha.2.1) (not_dot_of_all_digit hb.2.1)
      (not_dot_of_all_digit hc.2.1) (not_dot_of_all_digit hd.2.1),
      splitOn_quad (not_dot_of_all_digit ha'.2.1) (not_dot_of_all_digit hb'.2.1)
      (not_dot_of_all_digit hc'.2.1) (not_dot_of_all_digit hd'.2.1)] at hsplit
    simp only [List.cons.injEq, and_true] at hsplit
    obtain ⟨rfl, rfl, rfl, rfl⟩ := hsplit
    cases o
    cases o'
    obtain ⟨rfl, rfl, rfl, rfl⟩ := And.intro (ha.unique ha')
      (And.intro (hb.unique hb') (And.intro (hc.unique hc') (hd.unique hd')))
    rfl
  · cases h with
    | name hbracket _ =>
      cases h' with
      | name _ _ => rfl
      | ipv4 ha hb hc hd => exact absurd (quad_digit_or_dot ha.2.1 hb.2.1 hc.2.1 hd.2.1) hall
      | ipv6 h => exact absurd List.mem_cons_self hbracket
      | zoned h => exact absurd List.mem_cons_self hbracket
    | ipv4 ha hb hc hd => exact absurd (quad_digit_or_dot ha.2.1 hb.2.1 hc.2.1 hd.2.1) hall
    | ipv6 h =>
      obtain ⟨inner, x, heq, ⟨hx, rfl⟩ | ⟨address, zone, rfl, -, -⟩⟩ := h'.of_bracket
      · obtain rfl := (List.append_left_inj [93]).mp heq
        rw [Option.some.inj (h.symm.trans hx)]
      · obtain rfl := (List.append_left_inj [93]).mp heq
        refine absurd ?_ (not_percent_of_fromStr h)
        rw [hzone]
        simp
    | zoned h =>
      obtain ⟨inner, x, heq, ⟨hx, rfl⟩ | ⟨address, zone, rfl, hx, rfl⟩⟩ := h'.of_bracket
      · obtain rfl := (List.append_left_inj [93]).mp heq
        refine absurd ?_ (not_percent_of_fromStr hx)
        rw [hzone]
        simp
      · have hinner := (List.append_left_inj [93]).mp heq
        rw [hzone, List.append_assoc, List.append_assoc, List.cons_append, List.cons_append] at hinner
        obtain ⟨rfl, htail⟩ := Prod.mk.inj (Option.some.inj
          ((splitOnce_eq_some.mpr ⟨rfl, not_percent_of_fromStr h⟩).symm.trans
            (splitOnce_eq_some.mpr ⟨hinner, not_percent_of_fromStr hx⟩)))
        rw [Option.some.inj (h.symm.trans hx), List.append_cancel_left htail]

/-! ## What the parser returns -/

/-- What a parsed host denotes. -/
def ParsedHost.meaning : ParsedHost → Option Bytes → HostMeaning
  | .localHost .localhost, _ => .name (ascii "localhost")
  | .localHost (.ipv4 octets _), _ => .ipv4 octets
  | .localHost .ipv6Loopback, _ => .ipv6 .loopback none
  | .publicHost (.dns name), _ => .name name.text
  | .publicHost (.ip (.v4 address)), _ => .ipv4 address.octets
  | .publicHost (.ip (.v6 address)), scope => .ipv6 address scope

def ValidZone (zone : Bytes) : Prop := zone ≠ [] ∧ zone.all zoneOctet = true

/-- What holds of every host and scope that the parser returns. -/
def ParsedHost.Canonical : ParsedHost → Option Bytes → Prop
  | .localHost _, scope => scope = none
  | .publicHost (.dns name), scope =>
    scope = none ∧ ¬ Numeric name.text ∧ name.text ≠ ascii "localhost"
  | .publicHost (.ip (.v4 address)), scope =>
    scope = none ∧ ∃ octets : Octets, octets.a ≠ 127 ∧ address = .ofOctets octets
  | .publicHost (.ip (.v6 address)), scope =>
    (scope = none → address ≠ .loopback) ∧ ∀ zone ∈ scope, ValidZone zone

theorem numeric_lower {text : Bytes} : Numeric (lower text) ↔ Numeric text := by
  have hbyte (b : UInt8) : (Ascii.isDigit (Ascii.toLower b) || Ascii.toLower b == 46) =
      (Ascii.isDigit b || b == 46) := by
    revert b; exact forall_byte (by decide +kernel)
  rw [Numeric, Numeric, lower, List.all_map]
  simp only [Function.comp_def, hbyte]

theorem numeric_unrooted {text : Bytes} : Numeric (unrooted text) ↔ Numeric text := by
  unfold unrooted
  cases h : stripSuffix [46] text with
  | none => exact Iff.rfl
  | some front =>
    rw [stripSuffix_eq_some.mp h, Option.getD_some, Numeric, Numeric, List.all_append]
    simp

theorem domainName_fromStr_text {text : Bytes} {name : DomainName}
    (h : DomainName.fromStr text = some name) : name.text = lower (unrooted text) := by
  unfold DomainName.fromStr at h
  rw [Option.ite_none_left_eq_some] at h
  obtain ⟨-, h⟩ := h
  simp only [Option.dite_none_right_eq_some, Option.some.injEq] at h
  obtain ⟨hvalid, rfl⟩ := h
  rfl

theorem parseRegName_denotes {text : Bytes} {host : ParsedHost} (hbracket : (91 : UInt8) ∉ text)
    (h : parseRegName text = some host) :
    host.Canonical none ∧ Denotes text (host.meaning none) := by
  unfold parseRegName at h
  split at h
  · rename_i o ho
    obtain ⟨a, b, c, d, hs, ha, hb, hc, hd⟩ := parseIpv4_eq_some ho
    have htext : text = a ++ 46 :: (b ++ 46 :: (c ++ 46 :: d)) := by
      have hjoin : [46].intercalate (text.splitOn 46) = text := List.intercalate_splitOn 46
      rw [← hjoin, hs]
      simp [List.intercalate_cons_cons]
    have hdenotes : Denotes text (.ipv4 o) := by
      rw [htext]
      exact .ipv4 (spellsOctet_of_parse ha) (spellsOctet_of_parse hb) (spellsOctet_of_parse hc)
        (spellsOctet_of_parse hd)
    split at h
    · obtain rfl := Option.some.inj h
      exact ⟨rfl, hdenotes⟩
    · rename_i hne
      obtain rfl := Option.some.inj h
      refine ⟨⟨rfl, o, hne, rfl⟩, ?_⟩
      rw [ParsedHost.meaning, Ipv4Addr.octets_ofOctets]
      exact hdenotes
  · rw [Option.ite_none_left_eq_some, Option.map_eq_some_iff] at h
    obtain ⟨hall, name, hname, rfl⟩ := h
    have htext := domainName_fromStr_text hname
    have hdenotes : Denotes text (.name name.text) := by
      rw [htext]
      exact .name hbracket hall
    split
    · rename_i hlocal
      refine ⟨rfl, ?_⟩
      rw [ParsedHost.meaning, ← hlocal]
      exact hdenotes
    · rename_i hlocal
      refine ⟨⟨rfl, ?_, hlocal⟩, hdenotes⟩
      rw [htext, numeric_lower, numeric_unrooted]
      exact hall

theorem parseIpv6Host_denotes {inner : Bytes} {address : Ipv6Addr} {scope : Option Bytes}
    (h : parseIpv6Host inner = some (address, scope)) :
    (∀ zone ∈ scope, ValidZone zone) ∧ Denotes (91 :: (inner ++ [93])) (.ipv6 address scope) := by
  unfold parseIpv6Host at h
  split at h
  · obtain ⟨x, hx, heq⟩ := Option.map_eq_some_iff.mp h
    obtain ⟨rfl, rfl⟩ := Prod.mk.inj heq
    refine ⟨fun zone hzone => ?_, .ipv6 hx⟩
    cases hzone
  · rename_i front zone hsplit
    rw [Option.ite_none_left_eq_some] at h
    obtain ⟨hzone, h⟩ := h
    obtain ⟨x, hx, heq⟩ := Option.map_eq_some_iff.mp h
    obtain ⟨rfl, rfl⟩ := Prod.mk.inj heq
    rw [Bool.or_eq_true, Bool.or_eq_true, not_or, not_or] at hzone
    obtain ⟨⟨hne, -⟩, hall⟩ := hzone
    refine ⟨fun zone' hmem => ?_, ?_⟩
    · obtain rfl := Option.some.inj hmem
      exact ⟨by simpa using hne, by simpa using hall⟩
    · rw [splitOnceSeq_eq_some hsplit]
      exact .zoned hx

/-- **The parser returns what the host denotes.** -/
theorem parseAuthority_denotes {value : Bytes} {defaultPort : Option Port} {portRequired : Bool}
    {parsed : ParsedAuthority} (h : parseAuthority value defaultPort portRequired = some parsed) :
    parsed.host.Canonical parsed.ipv6Scope ∧
      Denotes (hostText value) (parsed.host.meaning parsed.ipv6Scope) := by
  unfold parseAuthority at h
  rw [Option.ite_none_left_eq_some] at h
  obtain ⟨-, h⟩ := h
  unfold hostText
  cases hstrip : stripPrefix [91] value with
  | some inner =>
    simp only [hstrip, parseBracketed, bind, Option.bind_eq_some_iff, Prod.exists, pure,
      Option.some.injEq] at h
    obtain ⟨text, suffix, hsplit, port, explicit, -, address, scope, hhost, rfl⟩ := h
    obtain ⟨hzone, hdenotes⟩ := parseIpv6Host_denotes hhost
    simp only [hsplit, Option.map_some, Option.getD_some]
    split
    · rename_i hloop
      rw [Bool.and_eq_true, Option.isNone_iff_eq_none, Ipv6Addr.isLoopback, beq_iff_eq] at hloop
      obtain ⟨rfl, rfl⟩ := hloop
      exact ⟨rfl, hdenotes⟩
    · rename_i hloop
      refine ⟨⟨?_, hzone⟩, hdenotes⟩
      rintro rfl rfl
      exact hloop (by simp [Ipv6Addr.isLoopback])
  | none =>
    simp only [hstrip, Option.ite_none_left_eq_some] at h
    obtain ⟨hbracket, h⟩ := h
    simp only [parseUnbracketed, bind, Option.bind_eq_some_iff, Prod.exists, pure,
      Option.ite_none_left_eq_some, Option.some.injEq] at h
    obtain ⟨port, explicit, -, host, ⟨-, hhost⟩, rfl⟩ := h
    refine parseRegName_denotes (fun hm => ?_) hhost
    simp only [Bool.or_eq_true, not_or, List.contains_iff_mem] at hbracket
    exact hbracket.1.1 (mem_of_mem_splitHostPort hm)

/-- The host and scope that are parsed from a text with the given meaning. -/
def HostMeaning.parsed : HostMeaning → Option (ParsedHost × Option Bytes)
  | .name text =>
    if text = ascii "localhost" then some (.localHost .localhost, none)
    else if h : validDomain text = true ∧ lower text = text then
      some (.publicHost (.dns ⟨text, h.1, h.2⟩), none)
    else none
  | .ipv4 octets =>
    if h : octets.a = 127 then some (.localHost (.ipv4 octets h), none)
    else some (.publicHost (.ip (.v4 (.ofOctets octets))), none)
  | .ipv6 address scope =>
    if scope = none ∧ address = .loopback then some (.localHost .ipv6Loopback, none)
    else some (.publicHost (.ip (.v6 address)), scope)

theorem ParsedHost.parsed_meaning {host : ParsedHost} {scope : Option Bytes}
    (h : host.Canonical scope) : (host.meaning scope).parsed = some (host, scope) := by
  rcases host with (_ | ⟨octets, loopback⟩ | _) | (name | address | address)
  · obtain rfl := h
    rfl
  · obtain rfl := h
    exact dif_pos loopback
  · obtain rfl := h
    rfl
  · obtain ⟨rfl, -, hlocal⟩ := h
    rw [meaning, HostMeaning.parsed, if_neg hlocal, dif_pos ⟨name.valid, name.lowercase⟩]
  · obtain ⟨rfl, octets, hne, rfl⟩ := h
    rw [meaning, Ipv4Addr.octets_ofOctets, HostMeaning.parsed, dif_neg hne]
  · exact if_neg fun hloop => h.1 hloop.1 hloop.2

/-- **Hosts that denote the same are the same.** -/
theorem ParsedHost.eq_of_meaning {host host' : ParsedHost} {scope scope' : Option Bytes}
    (h : host.Canonical scope) (h' : host'.Canonical scope')
    (heq : host.meaning scope = host'.meaning scope') : host = host' ∧ scope = scope' := by
  have hparsed := parsed_meaning h
  rw [heq, parsed_meaning h'] at hparsed
  obtain ⟨rfl, rfl⟩ := Prod.mk.inj (Option.some.inj hparsed)
  exact ⟨rfl, rfl⟩

/-! ## The canonical text -/

/-- The text of a host, with the brackets and the scope of an IPv6 address. -/
def ParsedHost.display : ParsedHost → Option Bytes → Bytes
  | .localHost host, _ => host.display
  | .publicHost (.dns name), _ => name.display
  | .publicHost (.ip (.v4 address)), _ => address.display
  | .publicHost (.ip (.v6 address)), none => 91 :: (address.display ++ [93])
  | .publicHost (.ip (.v6 address)), some zone =>
    91 :: (address.display ++ ascii "%25" ++ zone ++ [93])

/-- The text of a port that is written. -/
def portTail (port : Port) (explicitPort : Bool) : Bytes :=
  if explicitPort then 58 :: port.display else []

def authorityText (host : ParsedHost) (scope : Option Bytes) (port : Port) (explicitPort : Bool) :
    Bytes := host.display scope ++ portTail port explicitPort

theorem canonicalPublicAuthority_eq (host : PublicHost) (scope : Option Bytes) (port : Port)
    (explicitPort : Bool) : canonicalPublicAuthority host scope port explicitPort =
      authorityText (.publicHost host) scope port explicitPort := by
  unfold canonicalPublicAuthority authorityText portTail
  cases explicitPort with
  | true =>
    rcases host with name | address | address
    · rfl
    · rfl
    · cases scope with
      | none => rfl
      | some zone => rfl
  | false =>
    rcases host with name | address | address
    · exact (List.append_nil _).symm
    · exact (List.append_nil _).symm
    · cases scope with
      | none => exact (List.append_nil _).symm
      | some zone => exact (List.append_nil _).symm

theorem LoopbackAuthority.display_eq (authority : LoopbackAuthority) :
    authority.display = authorityText (.localHost authority.host) none authority.port true := rfl

/-! ### Its octets -/

/-- Letters, digits and the marks that a canonical authority is written with. -/
def authorityOctet (byte : UInt8) : Bool :=
  Ascii.isAlnum byte || [45, 46, 95, 126, 58, 91, 93, 37].contains byte

/-- How the classes of octets that hosts and ports are written with lie in one another. -/
theorem octet_classes (b : UInt8) :
    (Ascii.isDigit b = true → zoneOctet b = true) ∧
    ((Ascii.isAlnum b || b == 45 || b == 46) = true → zoneOctet b = true) ∧
    (zoneOctet b = true → authorityOctet b = true ∧ uriOctet b = true ∧ b < 128 ∧
      isSpace1 b = false) ∧
    (isAddrByte b = true → authorityOctet b = true ∧ uriOctet b = true) ∧
    (authorityOctet b = true → b < 128 ∧ authorityBreak b = false ∧ endsAuthority b = false ∧
      Ascii.isControl b = false ∧ Ascii.isWhitespace b = false) := by
  revert b; exact forall_byte (by decide +kernel)

theorem zoneOctet_of_digit {b : UInt8} (h : Ascii.isDigit b = true) : zoneOctet b = true :=
  (octet_classes b).1 h

theorem authorityOctet_of_zone {b : UInt8} (h : zoneOctet b = true) : authorityOctet b = true :=
  ((octet_classes b).2.2.1 h).1

theorem authorityOctet_of_addr {b : UInt8} (h : isAddrByte b = true) : authorityOctet b = true :=
  ((octet_classes b).2.2.2.1 h).1

theorem authorityOctet_plain {b : UInt8} (h : authorityOctet b = true) :
    b < 128 ∧ authorityBreak b = false :=
  have hclasses := (octet_classes b).2.2.2.2 h
  ⟨hclasses.1, hclasses.2.1⟩

theorem DomainName.text_byte {name : DomainName} {b : UInt8} (hb : b ∈ name.text) :
    (Ascii.isAlnum b || b == 45 || b == 46) = true := by
  have hvalid := name.valid
  rw [validDomain, Bool.and_eq_true] at hvalid
  have hjoin : [46].intercalate (labels name.text) = name.text := List.intercalate_splitOn 46
  rw [← hjoin] at hb
  rcases mem_intercalate hb with rfl | ⟨label, hlabel, hb⟩
  · rfl
  · have hall := List.all_eq_true.mp hvalid.2 label hlabel
    rw [validLabel, Bool.and_eq_true] at hall
    rw [List.all_eq_true.mp hall.2 b hb, Bool.true_or]

theorem DomainName.text_zoneOctet (name : DomainName) : name.text.all zoneOctet = true :=
  List.all_eq_true.mpr fun b hb => (octet_classes b).2.1 (text_byte hb)

theorem Octets.display_zoneOctet (o : Octets) : o.display.all zoneOctet = true :=
  List.all_eq_true.mpr fun b hb => by
    rcases Octets.display_byte hb with h | rfl
    · exact zoneOctet_of_digit h
    · rfl

theorem Octets.display_ne_nil (o : Octets) : o.display ≠ [] := by
  simp [Octets.display]

/-- A valid name does not end in a dot. -/
theorem DomainName.stripSuffix_text (name : DomainName) : stripSuffix [46] name.text = none := by
  have hvalid := name.valid
  rw [validDomain, Bool.and_eq_true] at hvalid
  cases h : stripSuffix [46] name.text with
  | none => rfl
  | some front =>
    have hmem : [] ∈ labels name.text := by
      rw [stripSuffix_eq_some.mp h, labels, List.splitOn_append_cons_self]
      simp
    exact absurd (List.all_eq_true.mp hvalid.2 [] hmem) (by decide)

/-- **A valid name is read from its own text.** -/
theorem DomainName.fromStr_text (name : DomainName) (hne : name.text ≠ []) :
    DomainName.fromStr name.text = some name := by
  have hbyte (b : UInt8) (hb : zoneOctet b = true) : b < 128 ∧ isSpace1 b = false :=
    ((octet_classes b).2.2.1 hb).2.2
  have hall := List.all_eq_true.mp name.text_zoneOctet
  have htrim : trim name.text = name.text :=
    trim_eq_self (fun b hb => hbyte b (hall b (List.mem_of_mem_head? hb)))
      fun b hb => hbyte b (hall b (List.mem_of_getLast? hb))
  rw [fromStr, htrim, if_neg (by simpa using hne)]
  simp only [name.stripSuffix_text, Option.getD_none, name.valid, ↓reduceDIte, Option.some.injEq]
  exact DomainName.ext name.lowercase

/-! ### It is parsed back -/

/-- Whether a port, written or not, is the one that is parsed. -/
def ReadsPort (defaultPort : Option Port) (portRequired : Bool) (port : Port)
    (explicitPort : Bool) : Prop :=
  explicitPort = true ∨ (explicitPort = false ∧ portRequired = false ∧ defaultPort = some port)

theorem parseRegName_name (name : DomainName) (hnot : ¬ Numeric name.text) :
    parseRegName name.text = some (if name.text = ascii "localhost" then .localHost .localhost
      else .publicHost (.dns name)) := by
  have hne : name.text ≠ [] := fun h => hnot (h ▸ rfl)
  have hquad : parseIpv4 name.text = none := by
    cases h : parseIpv4 name.text with
    | none => rfl
    | some octets => exact absurd (parseIpv4_agrees h).1 hnot
  unfold parseRegName
  rw [hquad]
  simp only [name.fromStr_text hne, Option.map_some, DomainName.display]
  exact if_neg hnot

theorem portTail_byte {port : Port} {explicitPort : Bool} {b : UInt8}
    (hb : b ∈ portTail port explicitPort) : b = 58 ∨ Ascii.isDigit b = true := by
  unfold portTail at hb
  split at hb
  · rcases List.mem_cons.mp hb with rfl | hb
    · exact .inl rfl
    · exact .inr (Port.display_byte hb)
  · exact absurd hb List.not_mem_nil

theorem authorityOctet_of_tail {port : Port} {explicitPort : Bool} {b : UInt8}
    (hb : b ∈ portTail port explicitPort) : authorityOctet b = true := by
  rcases portTail_byte hb with rfl | h
  · rfl
  · exact authorityOctet_of_zone (zoneOctet_of_digit h)

theorem not_mem_portTail {port : Port} {explicitPort : Bool} {b : UInt8} (hcolon : b ≠ 58)
    (hdigit : Ascii.isDigit b = false) : b ∉ portTail port explicitPort := fun hb => by
  rcases portTail_byte hb with rfl | h
  · exact hcolon rfl
  · rw [hdigit] at h
    cases h

/-- The first check of the parser passes. -/
theorem readable_of_octets {value : Bytes} (hne : value ≠ [])
    (hall : ∀ b ∈ value, authorityOctet b = true) :
    ¬ (value.isEmpty || !isAscii value || value.any authorityBreak) = true := by
  have hascii : isAscii value = true :=
    List.all_eq_true.mpr fun b hb => decide_eq_true (authorityOctet_plain (hall b hb)).1
  have hbreak : value.any authorityBreak = false :=
    List.any_eq_false.mpr fun b hb => by simp [(authorityOctet_plain (hall b hb)).2]
  rw [hascii, hbreak]
  simpa using hne

theorem splitHostPort_tail {text : Bytes} (hcolon : (58 : UInt8) ∉ text) (port : Port)
    (explicitPort : Bool) : splitHostPort (text ++ portTail port explicitPort) =
      (text, if explicitPort then some port.display else none) := by
  unfold splitHostPort portTail
  cases explicitPort with
  | true =>
    have hdigits : (58 : UInt8) ∉ port.display := fun h =>
      absurd (Port.display_byte h) (by decide)
    rw [if_pos rfl, if_pos rfl, rsplitOnce_eq_some.mpr ⟨rfl, hdigits⟩]
  | false =>
    rw [if_neg (by decide), if_neg (by decide), List.append_nil, rsplitOnce_eq_none.mpr hcolon]

theorem count_colon_tail (port : Port) (explicitPort : Bool) :
    (portTail port explicitPort).count 58 ≤ 1 := by
  unfold portTail
  split
  · have hdigits : (58 : UInt8) ∉ port.display := fun h =>
      absurd (Port.display_byte h) (by decide)
    rw [List.count_cons_self, List.count_eq_zero.mpr hdigits]
  · simp

section

variable {defaultPort : Option Port} {portRequired : Bool} {port : Port} {explicitPort : Bool}
  (hport : ReadsPort defaultPort portRequired port explicitPort)

include hport

theorem parsePortSuffix_tail :
    parsePortSuffix (if explicitPort then some port.display else none) defaultPort portRequired =
      some (port, explicitPort) := by
  rcases hport with rfl | ⟨rfl, rfl, rfl⟩
  · simp [parsePortSuffix, parsePort_display, Except.toOption]
  · rfl

theorem parseAuthorityPort_tail :
    parseAuthorityPort (portTail port explicitPort) defaultPort portRequired =
      some (port, explicitPort) := by
  rcases hport with rfl | ⟨rfl, rfl, rfl⟩
  · have hstrip : stripPrefix [58] (portTail port true) = some port.display :=
      stripPrefix_append [58] port.display
    simp [parseAuthorityPort, hstrip, parsePort_display, Except.toOption]
  · rfl

/-- An authority whose host is written without brackets. -/
theorem parseAuthority_plain {text : Bytes} {host : ParsedHost} (hne : text ≠ [])
    (hall : text.all zoneOctet = true) (hhost : parseRegName text = some host) :
    parseAuthority (text ++ portTail port explicitPort) defaultPort portRequired =
      some ⟨host, none, port, explicitPort⟩ := by
  have hnot {b : UInt8} (hb : zoneOctet b = false) : b ∉ text := fun hm => by
    rw [List.all_eq_true.mp hall b hm] at hb
    cases hb
  have hopen : (91 : UInt8) ∉ text ++ portTail port explicitPort := by
    rw [List.mem_append, not_or]
    exact ⟨hnot rfl, not_mem_portTail (by decide) rfl⟩
  have hclose : (93 : UInt8) ∉ text ++ portTail port explicitPort := by
    rw [List.mem_append, not_or]
    exact ⟨hnot rfl, not_mem_portTail (by decide) rfl⟩
  have hstrip : stripPrefix [91] (text ++ portTail port explicitPort) = none := by
    cases h : stripPrefix [91] (text ++ portTail port explicitPort) with
    | none => rfl
    | some rest =>
      refine absurd ?_ hopen
      rw [stripPrefix_eq_some.mp h]
      exact List.mem_cons_self
  have hcount : (text ++ portTail port explicitPort).count 58 ≤ 1 := by
    rw [List.count_append, List.count_eq_zero.mpr (hnot rfl), Nat.zero_add]
    exact count_colon_tail port explicitPort
  have hchecks : ¬ ((text ++ portTail port explicitPort).contains 91 ||
      (text ++ portTail port explicitPort).contains 93 ||
      decide (1 < (text ++ portTail port explicitPort).count 58)) = true := by
    rw [Bool.or_eq_true, Bool.or_eq_true, List.contains_iff_mem, List.contains_iff_mem,
      decide_eq_true_eq]
    rintro ((h | h) | h)
    · exact hopen h
    · exact hclose h
    · omega
  unfold parseAuthority
  rw [if_neg (readable_of_octets (by simp [hne]) fun b hb => ?_), hstrip]
  · simp only [if_neg hchecks, parseUnbracketed, splitHostPort_tail (hnot rfl),
      parsePortSuffix_tail hport, hhost, List.isEmpty_eq_false_iff.mpr hne]
    rfl
  · rcases List.mem_append.mp hb with hb | hb
    · exact authorityOctet_of_zone (List.all_eq_true.mp hall b hb)
    · exact authorityOctet_of_tail hb

theorem parseAuthority_bracketed {inner : Bytes} {address : Ipv6Addr} {scope : Option Bytes}
    (hall : ∀ b ∈ inner, authorityOctet b = true) (hclose : (93 : UInt8) ∉ inner)
    (hhost : parseIpv6Host inner = some (address, scope)) :
    parseAuthority (91 :: (inner ++ [93]) ++ portTail port explicitPort) defaultPort portRequired =
      some ⟨if scope.isNone && address.isLoopback then .localHost .ipv6Loopback
        else .publicHost (.ip (.v6 address)), scope, port, explicitPort⟩ := by
  have hstrip : stripPrefix [91] (91 :: (inner ++ [93]) ++ portTail port explicitPort) =
      some (inner ++ 93 :: portTail port explicitPort) := by
    rw [stripPrefix_eq_some]
    simp
  have hsplit : splitOnce 93 (inner ++ 93 :: portTail port explicitPort) =
      some (inner, portTail port explicitPort) := splitOnce_eq_some.mpr ⟨rfl, hclose⟩
  unfold parseAuthority
  rw [if_neg (readable_of_octets (by simp) fun b hb => ?_), hstrip]
  · simp only [parseBracketed, hsplit, parseAuthorityPort_tail hport, hhost, bind, Option.bind_some]
    rfl
  · simp only [List.cons_append, List.mem_cons, List.mem_append, List.not_mem_nil, or_false] at hb
    rcases hb with rfl | (hb | rfl) | hb
    · rfl
    · exact hall b hb
    · rfl
    · exact authorityOctet_of_tail hb

end

theorem parseIpv6Host_display (address : Ipv6Addr) :
    parseIpv6Host address.display = some (address, none) := by
  have hpercent : (37 : UInt8) ∉ address.display := fun h =>
    absurd (Ipv6Addr.display_byte h) (by decide)
  have hsplit : splitOnceSeq (ascii "%25") address.display = none := splitOnceSeq_eq_none hpercent
  rw [parseIpv6Host, hsplit, Ipv6Addr.fromStr_display]
  rfl

theorem parseIpv6Host_zoned (address : Ipv6Addr) {zone : Bytes} (h : ValidZone zone) :
    parseIpv6Host (address.display ++ ascii "%25" ++ zone) = some (address, some zone) := by
  obtain ⟨hne, hall⟩ := h
  have hpercent : (37 : UInt8) ∉ address.display := fun h =>
    absurd (Ipv6Addr.display_byte h) (by decide)
  have hzone : (37 : UInt8) ∉ zone := fun hm =>
    absurd (List.all_eq_true.mp hall 37 hm) (by decide)
  have hsplit : splitOnceSeq (ascii "%25") (address.display ++ ascii "%25" ++ zone) =
      some (address.display, zone) := splitOnceSeq_of_not_mem hpercent
  rw [parseIpv6Host, hsplit]
  simp [hne, hall, hzone, Ipv6Addr.fromStr_display]

/-! ### Request-target octets -/

theorem validUriOctets_cons {byte : UInt8} (hne : byte ≠ 37) (rest : Bytes) :
    validUriOctets (byte :: rest) = (uriOctet byte && validUriOctets rest) := by
  conv_lhs => unfold validUriOctets
  rw [if_neg hne]

/-- Request-target octets after other request-target octets. -/
theorem validUriOctets_append {s t : Bytes} (h : validUriOctets s = true) :
    validUriOctets (s ++ t) = validUriOctets t := by
  fun_induction validUriOctets s with
  | case1 => rfl
  | case2 c d rest ih =>
    rw [Bool.and_eq_true, Bool.and_eq_true] at h
    rw [List.cons_append, List.cons_append, List.cons_append, validUriOctets, if_pos rfl]
    simp only [h.1.1, h.1.2, ih h.2, Bool.true_and]
  | case3 => cases h
  | case4 byte rest hne ih =>
    rw [Bool.and_eq_true] at h
    rw [List.cons_append, validUriOctets_cons hne, h.1, ih h.2, Bool.true_and]

theorem validUriOctets_of_all {s : Bytes} (h : ∀ b ∈ s, uriOctet b = true) :
    validUriOctets s = true := by
  induction s with
  | nil => rfl
  | cons b s ih =>
    have hb := h b List.mem_cons_self
    have hne : b ≠ 37 := by
      rintro rfl
      cases hb
    rw [validUriOctets_cons hne, hb, ih fun c hc => h c (List.mem_cons_of_mem b hc)]
    rfl

theorem uriOctet_of_zone {b : UInt8} (h : zoneOctet b = true) : uriOctet b = true :=
  ((octet_classes b).2.2.1 h).2.1

theorem validUriOctets_display (address : Ipv6Addr) : validUriOctets address.display = true :=
  validUriOctets_of_all fun b hb => ((octet_classes b).2.2.2.1 (Ipv6Addr.display_byte hb)).2

theorem validUriOctets_tail (port : Port) (explicitPort : Bool) :
    validUriOctets (portTail port explicitPort) = true := by
  refine validUriOctets_of_all fun b hb => ?_
  rcases portTail_byte hb with rfl | h
  · rfl
  · exact uriOctet_of_zone (zoneOctet_of_digit h)

/-- How a canonical host is written. -/
inductive ParsedHost.Written : ParsedHost → Option Bytes → Prop
  | plain {host : ParsedHost} (hne : host.display none ≠ [])
      (hall : (host.display none).all zoneOctet = true)
      (hhost : parseRegName (host.display none) = some host) : Written host none
  | bracketed {host : ParsedHost} {scope : Option Bytes} (inner : Bytes) (address : Ipv6Addr)
      (htext : host.display scope = 91 :: (inner ++ [93]))
      (hall : ∀ b ∈ inner, authorityOctet b = true) (hclose : (93 : UInt8) ∉ inner)
      (huri : validUriOctets inner = true)
      (hinner : parseIpv6Host inner = some (address, scope))
      (hhost : host = if scope.isNone && address.isLoopback then .localHost .ipv6Loopback
        else .publicHost (.ip (.v6 address))) : Written host scope

theorem written_ipv4 (octets : Octets) {host : ParsedHost}
    (hdisplay : host.display none = octets.display) (hhost : parseRegName octets.display = some host) :
    host.Written none := by
  refine .plain ?_ ?_ ?_
  · rw [hdisplay]
    exact Octets.display_ne_nil octets
  · rw [hdisplay]
    exact Octets.display_zoneOctet octets
  · rw [hdisplay]
    exact hhost

theorem ParsedHost.written {host : ParsedHost} {scope : Option Bytes} (h : host.Canonical scope) :
    host.Written scope := by
  have haddr (address : Ipv6Addr) {b : UInt8} (hb : b ∈ address.display) :
      authorityOctet b = true ∧ b ≠ 93 := by
    have hbyte := Ipv6Addr.display_byte hb
    refine ⟨authorityOctet_of_addr hbyte, ?_⟩
    rintro rfl
    cases hbyte
  rcases host with (_ | ⟨octets, loopback⟩ | _) | (name | address | address)
  · obtain rfl := h
    let name : DomainName := ⟨ascii "localhost", by decide, by decide⟩
    exact .plain (by decide) (by decide) ((parseRegName_name name (by decide)).trans rfl)
  · obtain rfl := h
    refine written_ipv4 octets rfl ?_
    rw [parseRegName, parseIpv4_display]
    exact dif_pos loopback
  · obtain rfl := h
    refine .bracketed (ascii "::1") .loopback rfl ?_ (by decide) (by decide) (by decide +kernel) rfl
    exact List.all_eq_true.mp (by decide)
  · obtain ⟨rfl, hnot, hlocal⟩ := h
    refine .plain (fun hnil => hnot ?_) name.text_zoneOctet ?_
    · rw [show name.text = [] from hnil]
      rfl
    · exact (parseRegName_name name hnot).trans (congrArg some (if_neg hlocal))
  · obtain ⟨rfl, octets, hne, rfl⟩ := h
    refine written_ipv4 octets ?_ ?_
    · rw [display, Ipv4Addr.display, Ipv4Addr.octets_ofOctets]
    · rw [parseRegName, parseIpv4_display]
      exact dif_neg hne
  · obtain ⟨hloop, hzone⟩ := h
    have hhost : ParsedHost.publicHost (.ip (.v6 address)) =
        if scope.isNone && address.isLoopback then .localHost .ipv6Loopback
          else .publicHost (.ip (.v6 address)) := by
      rw [if_neg]
      rw [Bool.and_eq_true, Option.isNone_iff_eq_none, Ipv6Addr.isLoopback, beq_iff_eq]
      exact fun h => hloop h.1 h.2
    cases scope with
    | none =>
      exact .bracketed address.display address rfl (fun b hb => (haddr address hb).1)
        (fun hb => (haddr address hb).2 rfl) (validUriOctets_display address)
        (parseIpv6Host_display address) hhost
    | some zone =>
      have hvalid := hzone zone rfl
      have hbyte {b : UInt8} (hb : b ∈ address.display ++ ascii "%25" ++ zone) :
          authorityOctet b = true ∧ b ≠ 93 := by
        rcases List.mem_append.mp hb with hb | hb
        · rcases List.mem_append.mp hb with hb | hb
          · exact haddr address hb
          · have hall : (ascii "%25").all (fun b => authorityOctet b && b != 93) = true := by decide
            simpa using List.all_eq_true.mp hall b hb
        · have hoctet := List.all_eq_true.mp hvalid.2 b hb
          refine ⟨authorityOctet_of_zone hoctet, ?_⟩
          rintro rfl
          cases hoctet
      have huri : validUriOctets (address.display ++ ascii "%25" ++ zone) = true := by
        rw [List.append_assoc, validUriOctets_append (validUriOctets_display address),
          validUriOctets_append (by decide)]
        exact validUriOctets_of_all fun b hb =>
          uriOctet_of_zone (List.all_eq_true.mp hvalid.2 b hb)
      exact .bracketed _ address rfl (fun b hb => (hbyte hb).1) (fun hb => (hbyte hb).2 rfl) huri
        (parseIpv6Host_zoned address hvalid) hhost

/-- **A canonical authority is written with letters, digits and eight marks.** -/
theorem authorityText_byte {host : ParsedHost} {scope : Option Bytes} (h : host.Canonical scope)
    {port : Port} {explicitPort : Bool} {b : UInt8}
    (hb : b ∈ authorityText host scope port explicitPort) : authorityOctet b = true := by
  rcases List.mem_append.mp hb with hb | hb
  · cases ParsedHost.written h with
    | plain _ hall _ => exact authorityOctet_of_zone (List.all_eq_true.mp hall b hb)
    | bracketed inner address htext hall _ _ _ _ =>
      rw [htext, List.mem_cons, List.mem_append, List.mem_singleton] at hb
      rcases hb with rfl | hb | rfl
      · rfl
      · exact hall b hb
      · rfl
  · exact authorityOctet_of_tail hb

/-- **The canonical text is parsed to the host, scope and port it is the text of.** -/
theorem parseAuthority_authorityText {host : ParsedHost} {scope : Option Bytes}
    (h : host.Canonical scope) {defaultPort : Option Port} {portRequired : Bool} {port : Port}
    {explicitPort : Bool} (hport : ReadsPort defaultPort portRequired port explicitPort) :
    parseAuthority (authorityText host scope port explicitPort) defaultPort portRequired =
      some ⟨host, scope, port, explicitPort⟩ := by
  unfold authorityText
  cases ParsedHost.written h with
  | plain hne hall hhost => exact parseAuthority_plain hport hne hall hhost
  | bracketed inner address htext hall hclose _ hinner hhost =>
    rw [htext, parseAuthority_bracketed hport hall hclose hinner, ← hhost]

/-- A canonical authority may stand in an absolute target. -/
theorem validUriOctets_authorityText {host : ParsedHost} {scope : Option Bytes}
    (h : host.Canonical scope) (port : Port) (explicitPort : Bool) :
    validUriOctets (authorityText host scope port explicitPort) = true := by
  have htail := validUriOctets_tail port explicitPort
  unfold authorityText
  cases ParsedHost.written h with
  | plain _ hall _ =>
    rw [validUriOctets_append (validUriOctets_of_all fun b hb =>
      uriOctet_of_zone (List.all_eq_true.mp hall b hb)), htail]
  | bracketed inner address htext _ _ huri _ _ =>
    have hopen : validUriOctets [91] = true := by decide
    have hclose : validUriOctets [93] = true := by decide
    have happ : 91 :: (inner ++ [93]) ++ portTail port explicitPort =
        [91] ++ (inner ++ ([93] ++ portTail port explicitPort)) := by simp
    rw [htext, happ, validUriOctets_append hopen, validUriOctets_append huri,
      validUriOctets_append hclose, htail]

theorem authorityText_ne_nil {host : ParsedHost} {scope : Option Bytes}
    (h : host.Canonical scope) (port : Port) (explicitPort : Bool) :
    authorityText host scope port explicitPort ≠ [] := by
  unfold authorityText
  cases ParsedHost.written h with
  | plain hne _ _ => simp [hne]
  | bracketed inner address htext _ _ _ _ _ => simp [htext]

/-- A port that is not written is the default one, where one may be left out. -/
theorem parseAuthority_readsPort {value : Bytes} {defaultPort : Option Port} {portRequired : Bool}
    {parsed : ParsedAuthority} (h : parseAuthority value defaultPort portRequired = some parsed) :
    ReadsPort defaultPort portRequired parsed.port parsed.explicitPort := by
  unfold parseAuthority at h
  rw [Option.ite_none_left_eq_some] at h
  obtain ⟨-, h⟩ := h
  cases hstrip : stripPrefix [91] value with
  | some inner =>
    simp only [hstrip, parseBracketed, bind, Option.bind_eq_some_iff, Prod.exists, pure,
      Option.some.injEq] at h
    obtain ⟨text, suffix, -, port, explicit, hport, address, scope, -, rfl⟩ := h
    unfold parseAuthorityPort at hport
    split at hport
    · obtain ⟨p, -, heq⟩ := Option.map_eq_some_iff.mp hport
      exact .inl (Prod.mk.inj heq).2.symm
    · obtain ⟨hrequired, hport⟩ := Option.ite_none_right_eq_some.mp hport
      obtain ⟨p, hp, heq⟩ := Option.map_eq_some_iff.mp hport
      obtain ⟨rfl, rfl⟩ := Prod.mk.inj heq
      exact .inr ⟨rfl, by simpa using (Bool.and_eq_true_iff.mp hrequired).2, hp⟩
  | none =>
    simp only [hstrip, Option.ite_none_left_eq_some] at h
    obtain ⟨-, h⟩ := h
    simp only [parseUnbracketed, bind, Option.bind_eq_some_iff, Prod.exists, pure,
      Option.ite_none_left_eq_some, Option.some.injEq] at h
    obtain ⟨port, explicit, hport, host, -, rfl⟩ := h
    unfold parsePortSuffix at hport
    split at hport
    · obtain ⟨p, -, heq⟩ := Option.map_eq_some_iff.mp hport
      exact .inl (Prod.mk.inj heq).2.symm
    · obtain ⟨hrequired, hport⟩ := Option.ite_none_left_eq_some.mp hport
      obtain ⟨p, hp, heq⟩ := Option.map_eq_some_iff.mp hport
      obtain ⟨rfl, rfl⟩ := Prod.mk.inj heq
      exact .inr ⟨rfl, by simpa using hrequired, hp⟩

end Vhrn.Proxy
