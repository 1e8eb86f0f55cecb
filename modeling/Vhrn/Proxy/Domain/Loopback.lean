import Vhrn.Proxy.Domain.Target

/-!
# Loopback hosts

What the classifier takes for the loopback host. `LoopbackSpelling` says which texts name it, with no
reference to the parsers: `localhost` in any case and with an optional root dot, a dotted quad in
127.0.0.0/8, and an unscoped `::1` in brackets in any of its spellings. `classify_loopback` and
`classify_public` are the two directions: a target whose host is so spelled is refused or local, and a
public target's host is not so spelled.
-/

namespace Vhrn.Proxy

/-! ## Canonical texts are read back -/

theorem decimal_ne_nil (n : ℕ) : Numerals.decimal n ≠ [] := Numerals.numeral_ne_nil n

theorem all_isDigit_decimal (n : ℕ) : (Numerals.decimal n).all Ascii.isDigit = true :=
  List.all_eq_true.mpr fun _ hb => Numerals.isDigit_of_mem_decimal hb

theorem value_decimal (n : ℕ) : Numerals.value 10 (Numerals.decimal n) = n :=
  Numerals.value_numeral (by omega) (by omega) n

/-- What a dotted quad's part says when it is accepted. -/
theorem parseIpv4Octet_eq_some {part : Bytes} {x : UInt8} (h : parseIpv4Octet part = some x) :
    part ≠ [] ∧ part.all Ascii.isDigit = true ∧ Numerals.value 10 part = x.toNat := by
  unfold parseIpv4Octet at h
  rw [Option.ite_none_left_eq_some] at h
  obtain ⟨hc, h⟩ := h
  simp only [Bool.or_eq_true, not_or, Bool.not_eq_true, Bool.not_eq_false'] at hc
  refine ⟨by simpa using hc.1.1, hc.1.2, ?_⟩
  rw [Numerals.checkedValue_eq (by omega), Option.map_eq_some_iff] at h
  obtain ⟨n, hn, rfl⟩ := h
  rw [Option.ite_none_right_eq_some] at hn
  obtain ⟨hle, hn⟩ := hn
  obtain rfl := Option.some.inj hn
  rw [UInt8.toNat_ofNat_of_lt' (Nat.lt_succ_of_le hle)]

theorem parseIpv4Octet_decimal (x : UInt8) :
    parseIpv4Octet (Numerals.decimal x.toNat) = some x := by
  have hne := decimal_ne_nil x.toNat
  have hz : (decide (1 < (Numerals.decimal x.toNat).length) &&
      (Numerals.decimal x.toNat).head? == some 48) = false := by
    by_cases hl : 1 < (Numerals.decimal x.toNat).length
    · simp [Numerals.head?_numeral (by decide) (by decide) hl]
    · simp [hl]
  have hlt : x.toNat ≤ 255 := Nat.le_of_lt_succ x.toNat_lt
  unfold parseIpv4Octet
  rw [all_isDigit_decimal, hz, Numerals.checkedValue_eq (by omega), value_decimal, if_pos hlt,
    if_neg (by simpa using hne)]
  simp

/-- What an accepted dotted quad says. -/
theorem parseIpv4_eq_some {value : Bytes} {o : Octets} (h : parseIpv4 value = some o) :
    ∃ a b c d, value.splitOn 46 = [a, b, c, d] ∧ parseIpv4Octet a = some o.a ∧
      parseIpv4Octet b = some o.b ∧ parseIpv4Octet c = some o.c ∧ parseIpv4Octet d = some o.d := by
  unfold parseIpv4 at h
  split at h
  · rename_i a b c d hs
    simp only [bind, Option.bind_eq_some_iff, pure, Option.some.injEq] at h
    obtain ⟨xa, ha, xb, hb, xc, hc, xd, hd, rfl⟩ := h
    exact ⟨a, b, c, d, hs, ha, hb, hc, hd⟩
  · cases h

theorem not_dot_of_all_digit {part : Bytes} (h : part.all Ascii.isDigit = true) :
    (46 : UInt8) ∉ part := fun hm => absurd (List.all_eq_true.mp h 46 hm) (by decide)

theorem splitOn_quad {a b c d : Bytes} (ha : (46 : UInt8) ∉ a) (hb : (46 : UInt8) ∉ b)
    (hc : (46 : UInt8) ∉ c) (hd : (46 : UInt8) ∉ d) :
    (a ++ 46 :: (b ++ 46 :: (c ++ 46 :: d))).splitOn 46 = [a, b, c, d] := by
  rw [List.splitOn_append_cons_self_of_not_mem ha, List.splitOn_append_cons_self_of_not_mem hb,
    List.splitOn_append_cons_self_of_not_mem hc, List.splitOn_eq_singleton hd]

theorem parseIpv4_display (o : Octets) : parseIpv4 o.display = some o := by
  have hdot (x : UInt8) := not_dot_of_all_digit (all_isDigit_decimal x.toNat)
  unfold parseIpv4 Octets.display
  rw [splitOn_quad (hdot _) (hdot _) (hdot _) (hdot _)]
  simp [parseIpv4Octet_decimal]

theorem parsePort_display (port : Port) : parsePort port.display = .ok port := by
  have hlt : port.number.toNat ≤ 65535 := Nat.le_of_lt_succ port.number.toNat_lt
  have hne := decimal_ne_nil port.number.toNat
  unfold parsePort Port.display
  rw [if_neg (by simpa using hne), all_isDigit_decimal, Numerals.checkedValue_eq (by omega),
    value_decimal, if_pos hlt]
  simp [port.nonzero]

theorem Octets.display_byte {o : Octets} {b : UInt8} (hb : b ∈ o.display) :
    Ascii.isDigit b = true ∨ b = 46 := by
  simp only [Octets.display, List.mem_append, List.mem_cons] at hb
  rcases hb with h | rfl | h | rfl | h | rfl | h
  · exact .inl (Numerals.isDigit_of_mem_decimal h)
  · exact .inr rfl
  · exact .inl (Numerals.isDigit_of_mem_decimal h)
  · exact .inr rfl
  · exact .inl (Numerals.isDigit_of_mem_decimal h)
  · exact .inr rfl
  · exact .inl (Numerals.isDigit_of_mem_decimal h)

/-- An octet of the text of a loopback authority. -/
def isAuthorityByte (b : UInt8) : Bool :=
  Ascii.isLower b || Ascii.isDigit b || b == 46 || b == 58 || b == 91 || b == 93

theorem LoopbackHost.display_byte (host : LoopbackHost) {b : UInt8} (hb : b ∈ host.display) :
    isAuthorityByte b = true := by
  cases host with
  | localhost =>
    have hall : LoopbackHost.localhost.display.all isAuthorityByte = true := by decide
    exact List.all_eq_true.mp hall b hb
  | ipv4 octets _ =>
    rcases Octets.display_byte hb with h | rfl
    · simp [isAuthorityByte, h]
    · decide
  | ipv6Loopback =>
    have hall : LoopbackHost.ipv6Loopback.display.all isAuthorityByte = true := by decide
    exact List.all_eq_true.mp hall b hb

theorem Port.display_byte {port : Port} {b : UInt8} (hb : b ∈ port.display) :
    Ascii.isDigit b = true := Numerals.isDigit_of_mem_decimal hb

theorem LoopbackAuthority.display_byte {authority : LoopbackAuthority} {b : UInt8}
    (hb : b ∈ authority.display) : isAuthorityByte b = true := by
  rcases List.mem_append.mp hb with h | h
  · exact authority.host.display_byte h
  · rcases List.mem_cons.mp h with rfl | h
    · decide
    · simp [isAuthorityByte, Port.display_byte h]

theorem LoopbackAuthority.display_ne_nil (authority : LoopbackAuthority) :
    authority.display ≠ [] := by
  simp [LoopbackAuthority.display]

theorem LoopbackAuthority.isAscii_display (authority : LoopbackAuthority) :
    isAscii authority.display = true := by
  have hb (b : UInt8) : isAuthorityByte b = true → b < 128 := by
    revert b; exact forall_byte (by decide +kernel)
  exact List.all_eq_true.mpr fun b h => decide_eq_true (hb b (display_byte h))

theorem LoopbackAuthority.trim_display (authority : LoopbackAuthority) :
    trim authority.display = authority.display := by
  have hb (b : UInt8) : isAuthorityByte b = true → b < 128 ∧ isSpace1 b = false := by
    revert b; exact forall_byte (by decide +kernel)
  exact trim_eq_self (fun b h => hb b (display_byte (List.mem_of_mem_head? h)))
    fun b h => hb b (display_byte (List.mem_of_getLast? h))

theorem LoopbackAuthority.rsplitOnce_display (authority : LoopbackAuthority) :
    rsplitOnce 58 authority.display = some (authority.host.display, authority.port.display) :=
  rsplitOnce_eq_some.mpr ⟨rfl, fun h => absurd (Port.display_byte h) (by decide)⟩

theorem Octets.display_head {o : Octets} : ∃ b ∈ o.display.head?, Ascii.isDigit b = true := by
  obtain ⟨b, rest, hb⟩ := List.exists_cons_of_ne_nil (decimal_ne_nil o.a.toNat)
  refine ⟨b, by simp [Octets.display, hb], ?_⟩
  exact Numerals.isDigit_of_mem_decimal (n := o.a.toNat) (by rw [hb]; simp)

/-- **The canonical text of a loopback authority is read back.** -/
theorem LoopbackAuthority.fromStr_display (authority : LoopbackAuthority) :
    LoopbackAuthority.fromStr authority.display = .ok authority := by
  have hne := authority.display_ne_nil
  unfold LoopbackAuthority.fromStr
  rw [trim_display, isAscii_display, rsplitOnce_display, if_neg (by simpa using hne)]
  simp only [parsePort_display]
  rcases authority with ⟨host, port⟩
  cases host with
  | localhost =>
    have h : eqIgnoreCase (LoopbackHost.display .localhost) (ascii "localhost") = true := by decide
    simp only [bind, Except.bind, h, ↓reduceIte]
    rfl
  | ipv4 octets loopback =>
    obtain ⟨b, hb, hd⟩ := Octets.display_head (o := octets)
    obtain ⟨rest, hrest⟩ := List.head?_eq_some_iff.mp hb
    have hlower (b : UInt8) : Ascii.isDigit b = true → Ascii.toLower b ≠ 108 ∧ b ≠ 91 := by
      revert b; exact forall_byte (by decide +kernel)
    have h1 : eqIgnoreCase (LoopbackHost.display (.ipv4 octets loopback)) (ascii "localhost") =
        false := by
      rw [LoopbackHost.display, hrest, eqIgnoreCase, beq_eq_false_iff_ne]
      intro h
      exact (hlower b hd).1 (List.cons.inj h).1
    have h2 : stripPrefix [91] (LoopbackHost.display (.ipv4 octets loopback)) = none := by
      rw [LoopbackHost.display, hrest, stripPrefix]
      simp [(hlower b hd).2.symm]
    simp only [bind, Except.bind, h1, h2, Bool.false_eq_true, ↓reduceIte, Option.bind_none]
    simp only [LoopbackHost.display, parseIpv4_display, loopback, ↓reduceDIte]
    rfl
  | ipv6Loopback =>
    have h1 : eqIgnoreCase (LoopbackHost.display .ipv6Loopback) (ascii "localhost") = false := by
      decide
    have h2 : (stripPrefix [91] (LoopbackHost.display .ipv6Loopback)).bind (stripSuffix [93]) =
        some (ascii "::1") := by decide
    have h3 : Ipv6Addr.fromStr (ascii "::1") = some .loopback := by decide +kernel
    simp only [bind, Except.bind, h1, h2, h3, Bool.false_eq_true, ↓reduceIte]
    rfl

/-! ## Spellings of the loopback host -/

/-- A part of a dotted quad that says `x`, with or without leading zeros. -/
def SpellsOctet (part : Bytes) (x : UInt8) : Prop :=
  part ≠ [] ∧ part.all Ascii.isDigit = true ∧ Numerals.value 10 part = x.toNat

/-- The texts that name a loopback host. -/
inductive LoopbackSpelling : Bytes → LoopbackHost → Prop
  | localhost {text : Bytes} (h : lower text = ascii "localhost") : LoopbackSpelling text .localhost
  | rootDot {text : Bytes} (h : lower text = ascii "localhost.") : LoopbackSpelling text .localhost
  | ipv4 {a b c d : Bytes} {o : Octets} (loopback : o.a = 127) (ha : SpellsOctet a o.a)
      (hb : SpellsOctet b o.b) (hc : SpellsOctet c o.c) (hd : SpellsOctet d o.d) :
      LoopbackSpelling (a ++ 46 :: (b ++ 46 :: (c ++ 46 :: d))) (.ipv4 o loopback)
  | ipv6 {text : Bytes} (h : Ipv6Addr.fromStr text = some .loopback) :
      LoopbackSpelling (91 :: (text ++ [93])) .ipv6Loopback

/-- The host subcomponent of an authority, brackets included. -/
def hostText (authority : Bytes) : Bytes :=
  match stripPrefix [91] authority with
  | some value => 91 :: (((splitOnce 93 value).map Prod.fst).getD value ++ [93])
  | none => (splitHostPort authority).1

/-- The text of the port of an authority, when one is written. -/
def portText (authority : Bytes) : Option Bytes :=
  match stripPrefix [91] authority with
  | some value => (splitOnce 93 value).bind fun parts => stripPrefix [58] parts.2
  | none => (splitHostPort authority).2

/-- The port is the one that is written, or else the default of the scheme. -/
def SpellsPort (authority : Bytes) (defaultPort : Option Port) (port : Port) : Prop :=
  (∃ text, portText authority = some text ∧ parsePort text = .ok port) ∨
    (portText authority = none ∧ defaultPort = some port)

/-- The authority of a request target: all of it for CONNECT, the part of an absolute target
otherwise. -/
def targetAuthority (method : Method) (rawTarget : Bytes) : Option Bytes :=
  if method = Method.connect then some rawTarget else (splitAbsolute rawTarget).map (·.2.1)

theorem SpellsOctet.unique {part : Bytes} {x y : UInt8} (hx : SpellsOctet part x)
    (hy : SpellsOctet part y) : x = y :=
  UInt8.toNat_inj.mp (hx.2.2.symm.trans hy.2.2)

theorem spellsOctet_of_parse {part : Bytes} {x : UInt8} (h : parseIpv4Octet part = some x) :
    SpellsOctet part x := parseIpv4Octet_eq_some h

/-- The octets of a spelled dotted quad are digits and dots. -/
theorem quad_digit_or_dot {a b c d : Bytes} (ha : a.all Ascii.isDigit = true)
    (hb : b.all Ascii.isDigit = true) (hc : c.all Ascii.isDigit = true)
    (hd : d.all Ascii.isDigit = true) :
    (a ++ 46 :: (b ++ 46 :: (c ++ 46 :: d))).all (fun x => Ascii.isDigit x || x == 46) = true := by
  have hpart {s : Bytes} (hs : s.all Ascii.isDigit = true) :
      s.all (fun x => Ascii.isDigit x || x == 46) = true :=
    List.all_eq_true.mpr fun x hx => by simp [List.all_eq_true.mp hs x hx]
  simp [List.all_append, hpart ha, hpart hb, hpart hc, hpart hd]

/-! ### Which texts the four forms can be -/

theorem lower_not_digit {text : Bytes} {s : String}
    (hs : ∃ b ∈ ascii s, Ascii.isAlpha b = true) (h : lower text = ascii s) :
    text.all (fun x => Ascii.isDigit x || x == 46) = false := by
  obtain ⟨b, hb, halpha⟩ := hs
  rw [← h, lower, List.mem_map] at hb
  obtain ⟨c, hc, rfl⟩ := hb
  have hcase (x : UInt8) : Ascii.isAlpha (Ascii.toLower x) = true →
      (Ascii.isDigit x || x == 46) = false := by
    revert x; exact forall_byte (by decide +kernel)
  rw [Bool.eq_false_iff]
  intro hall
  have hdigit := List.all_eq_true.mp hall c hc
  rw [hcase c halpha] at hdigit
  cases hdigit

/-- A text of digits and dots spells a loopback host only as a dotted quad. -/
theorem spelling_of_digits {text : Bytes} {host : LoopbackHost}
    (hall : text.all (fun x => Ascii.isDigit x || x == 46) = true)
    (h : LoopbackSpelling text host) :
    ∃ a b c d o, ∃ loopback : o.a = 127, text = a ++ 46 :: (b ++ 46 :: (c ++ 46 :: d)) ∧
      SpellsOctet a o.a ∧ SpellsOctet b o.b ∧ SpellsOctet c o.c ∧ SpellsOctet d o.d ∧
      host = .ipv4 o loopback := by
  cases h with
  | localhost h =>
    rw [lower_not_digit ⟨108, by decide, by decide⟩ h] at hall
    cases hall
  | rootDot h =>
    rw [lower_not_digit ⟨108, by decide, by decide⟩ h] at hall
    cases hall
  | ipv4 loopback ha hb hc hd => exact ⟨_, _, _, _, _, loopback, rfl, ha, hb, hc, hd, rfl⟩
  | ipv6 h => simp [Ascii.isDigit] at hall

/-- A text that starts with a bracket spells a loopback host only as an IPv6 literal. -/
theorem spelling_of_bracket {text : Bytes} {host : LoopbackHost}
    (h : LoopbackSpelling (91 :: text) host) :
    ∃ inner, text = inner ++ [93] ∧ Ipv6Addr.fromStr inner = some .loopback ∧
      host = .ipv6Loopback := by
  generalize ht : (91 :: text : Bytes) = t at h
  cases h with
  | localhost h =>
    subst ht
    exact absurd (List.cons.inj h).1 (by decide)
  | rootDot h =>
    subst ht
    exact absurd (List.cons.inj h).1 (by decide)
  | ipv4 loopback ha hb hc hd =>
    rename_i a b c d o
    obtain ⟨x, rest, hx⟩ := List.exists_cons_of_ne_nil ha.1
    subst hx
    rw [List.cons_append, List.cons.injEq] at ht
    have hdigit := List.all_eq_true.mp ha.2.1 x (by simp)
    rw [← ht.1] at hdigit
    exact absurd hdigit (by decide)
  | ipv6 h =>
    rw [List.cons.injEq] at ht
    exact ⟨_, ht.2, h, rfl⟩

/-- What a text without brackets and not of digits and dots spells. -/
theorem spelling_of_name {text : Bytes} {host : LoopbackHost} (hb : (91 : UInt8) ∉ text)
    (hall : text.all (fun x => Ascii.isDigit x || x == 46) = false)
    (h : LoopbackSpelling text host) :
    (lower text = ascii "localhost" ∨ lower text = ascii "localhost.") ∧ host = .localhost := by
  cases h with
  | localhost h => exact ⟨.inl h, rfl⟩
  | rootDot h => exact ⟨.inr h, rfl⟩
  | ipv4 loopback ha hb' hc hd =>
    rw [quad_digit_or_dot ha.2.1 hb'.2.1 hc.2.1 hd.2.1] at hall
    cases hall
  | ipv6 h => exact absurd (by simp) hb

/-- A text spells at most one loopback host. -/
theorem LoopbackSpelling.unique {text : Bytes} {host host' : LoopbackHost}
    (h : LoopbackSpelling text host) (h' : LoopbackSpelling text host') : host = host' := by
  by_cases hall : text.all (fun x => Ascii.isDigit x || x == 46) = true
  · obtain ⟨a, b, c, d, o, loopback, rfl, ha, hb, hc, hd, rfl⟩ := spelling_of_digits hall h
    obtain ⟨a', b', c', d', o', loopback', heq, ha', hb', hc', hd', rfl⟩ :=
      spelling_of_digits hall h'
    have hsplit := congrArg (List.splitOn 46) heq
    rw [splitOn_quad (not_dot_of_all_digit ha.2.1) (not_dot_of_all_digit hb.2.1)
      (not_dot_of_all_digit hc.2.1) (not_dot_of_all_digit hd.2.1),
      splitOn_quad (not_dot_of_all_digit ha'.2.1) (not_dot_of_all_digit hb'.2.1)
      (not_dot_of_all_digit hc'.2.1) (not_dot_of_all_digit hd'.2.1)] at hsplit
    simp only [List.cons.injEq, and_true] at hsplit
    obtain ⟨rfl, rfl, rfl, rfl⟩ := hsplit
    cases o
    cases o'
    obtain ⟨rfl, rfl, rfl, rfl⟩ :=
      And.intro (ha.unique ha') (And.intro (hb.unique hb') (And.intro (hc.unique hc') (hd.unique hd')))
    rfl
  · rw [Bool.not_eq_true] at hall
    have name {s : String} (hs : (91 : UInt8) ∉ ascii s) (hl : lower text = ascii s) :
        (91 : UInt8) ∉ text := fun hm =>
      hs (hl ▸ (mem_lower_of_not_alpha (by decide)).mpr hm)
    cases h with
    | localhost hl => exact (spelling_of_name (name (by decide) hl) hall h').2.symm
    | rootDot hl => exact (spelling_of_name (name (by decide) hl) hall h').2.symm
    | ipv4 loopback ha hb hc hd =>
      rw [quad_digit_or_dot ha.2.1 hb.2.1 hc.2.1 hd.2.1] at hall
      cases hall
    | ipv6 h =>
      obtain ⟨-, -, -, heq⟩ := spelling_of_bracket h'
      exact heq.symm

/-! ## The parsers and the spellings -/

/-- The host a parser returns is loopback exactly when its text is so spelled. -/
def HostAgrees (text : Bytes) : ParsedHost → Prop
  | .localHost host => LoopbackSpelling text host
  | .publicHost _ => ∀ host, ¬ LoopbackSpelling text host

theorem parseIpv4_agrees {text : Bytes} {o : Octets} (h : parseIpv4 text = some o) :
    text.all (fun x => Ascii.isDigit x || x == 46) = true ∧
      (∀ loopback : o.a = 127, LoopbackSpelling text (.ipv4 o loopback)) ∧
      (o.a ≠ 127 → ∀ host, ¬ LoopbackSpelling text host) := by
  obtain ⟨a, b, c, d, hs, ha, hb, hc, hd⟩ := parseIpv4_eq_some h
  have ha' := spellsOctet_of_parse ha
  have hb' := spellsOctet_of_parse hb
  have hc' := spellsOctet_of_parse hc
  have hd' := spellsOctet_of_parse hd
  have htext : text = a ++ 46 :: (b ++ 46 :: (c ++ 46 :: d)) := by
    have hjoin : [46].intercalate (text.splitOn 46) = text := List.intercalate_splitOn 46
    rw [← hjoin, hs]
    simp [List.intercalate_cons_cons]
  have hall := quad_digit_or_dot ha'.2.1 hb'.2.1 hc'.2.1 hd'.2.1
  rw [← htext] at hall
  refine ⟨hall, fun loopback => htext ▸ .ipv4 loopback ha' hb' hc' hd', fun hne host hsp => ?_⟩
  obtain ⟨a₂, b₂, c₂, d₂, o₂, loopback, heq, ha₂, hb₂, hc₂, hd₂, -⟩ := spelling_of_digits hall hsp
  have hsplit : text.splitOn 46 = [a₂, b₂, c₂, d₂] := by
    rw [heq]
    exact splitOn_quad (not_dot_of_all_digit ha₂.2.1) (not_dot_of_all_digit hb₂.2.1)
      (not_dot_of_all_digit hc₂.2.1) (not_dot_of_all_digit hd₂.2.1)
  rw [hs, List.cons.injEq] at hsplit
  rw [← hsplit.1] at ha₂
  exact hne ((ha'.unique ha₂).trans loopback)

/-- The name read from a text is `localhost` exactly when the text spells it. -/
theorem domainName_localhost_iff {text : Bytes} {domain : DomainName}
    (h : DomainName.fromStr text = some domain) :
    domain.display = ascii "localhost" ↔
      lower text = ascii "localhost" ∨ lower text = ascii "localhost." := by
  unfold DomainName.fromStr at h
  rw [Option.ite_none_left_eq_some] at h
  obtain ⟨-, h⟩ := h
  simp only [Option.dite_none_right_eq_some, Option.some.injEq] at h
  obtain ⟨hvalid, rfl⟩ := h
  have hdot : ascii "localhost." = ascii "localhost" ++ [46] := by decide
  have hlast : (46 : UInt8) ∉ ascii "localhost" := by decide
  rw [hdot]
  simp only [DomainName.display]
  cases hs : stripSuffix [46] text with
  | none =>
    rw [Option.getD_none]
    refine ⟨.inl, ?_⟩
    rintro (h | h)
    · exact h
    · obtain ⟨front, last, rfl, hf, hl⟩ := List.map_eq_append_iff.mp h
      obtain ⟨x, rfl⟩ := List.length_eq_one_iff.mp (by simpa using congrArg List.length hl)
      have hx : x = 46 := (Ascii.toLower_eq_iff (by decide)).mp (List.cons.inj hl).1
      rw [hx, stripSuffix_append] at hs
      cases hs
  | some front =>
    rw [Option.getD_some, stripSuffix_eq_some.mp hs, lower_append]
    have hlower : lower [46] = [46] := by decide
    rw [hlower, List.append_left_inj]
    refine ⟨.inr, ?_⟩
    rintro (h | h)
    · exact absurd (by rw [← h]; simp) hlast
    · exact h

theorem parseRegName_agrees {text : Bytes} {host : ParsedHost} (hb : (91 : UInt8) ∉ text)
    (h : parseRegName text = some host) : HostAgrees text host := by
  unfold parseRegName at h
  split at h
  · rename_i o ho
    obtain ⟨-, hyes, hno⟩ := parseIpv4_agrees ho
    split at h
    · rename_i loopback
      obtain rfl := Option.some.inj h
      exact hyes loopback
    · rename_i hne
      obtain rfl := Option.some.inj h
      exact hno hne
  · rw [Option.ite_none_left_eq_some, Option.map_eq_some_iff] at h
    obtain ⟨hall, domain, hdomain, rfl⟩ := h
    have hiff := domainName_localhost_iff hdomain
    split
    · rename_i hlocal
      rcases hiff.mp hlocal with h | h
      · exact .localhost h
      · exact .rootDot h
    · rename_i hlocal
      intro host hsp
      exact hlocal (hiff.mpr (spelling_of_name hb (by simpa using hall) hsp).1)

theorem parseIpv6Host_agrees {inner : Bytes} {address : Ipv6Addr} {scope : Option Bytes}
    (h : parseIpv6Host inner = some (address, scope)) :
    (scope.isNone && address.isLoopback) = true ↔ Ipv6Addr.fromStr inner = some .loopback := by
  unfold parseIpv6Host at h
  split at h
  · obtain ⟨x, hx, heq⟩ := Option.map_eq_some_iff.mp h
    obtain ⟨rfl, rfl⟩ := Prod.mk.inj heq
    simp [hx, Ipv6Addr.isLoopback]
  · rename_i front zone hsplit
    rw [Option.ite_none_left_eq_some] at h
    obtain ⟨-, h⟩ := h
    obtain ⟨x, hx, heq⟩ := Option.map_eq_some_iff.mp h
    obtain ⟨rfl, rfl⟩ := Prod.mk.inj heq
    -- the percent sign of a zone is in no address
    have hmem : (37 : UInt8) ∈ inner := by
      rw [splitOnceSeq_eq_some hsplit, List.mem_append, List.mem_append]
      exact .inl (.inr (by decide))
    refine ⟨fun h => by simp at h, fun h => ?_⟩
    exact absurd (Ipv6Addr.fromStr_byte h hmem) (by decide)

theorem mem_of_mem_splitHostPort {value : Bytes} {b : UInt8} (h : b ∈ (splitHostPort value).1) :
    b ∈ value := by
  unfold splitHostPort at h
  split at h
  · rename_i host port hs
    rw [(rsplitOnce_eq_some.mp hs).1]
    exact List.mem_append_left _ h
  · exact h

/-- **The authority parser tells loopback hosts from the others by their spelling.** -/
theorem parseAuthority_agrees {value : Bytes} {defaultPort : Option Port} {portRequired : Bool}
    {parsed : ParsedAuthority} (h : parseAuthority value defaultPort portRequired = some parsed) :
    HostAgrees (hostText value) parsed.host := by
  unfold parseAuthority at h
  rw [Option.ite_none_left_eq_some] at h
  obtain ⟨-, h⟩ := h
  unfold hostText
  cases hstrip : stripPrefix [91] value with
  | some inner =>
    simp only [hstrip, parseBracketed, bind, Option.bind_eq_some_iff, Prod.exists, pure,
      Option.some.injEq] at h
    obtain ⟨text, suffix, hsplit, port, explicit, -, address, scope, hhost, rfl⟩ := h
    have hiff := parseIpv6Host_agrees hhost
    simp only [hsplit, Option.map_some, Option.getD_some]
    split
    · rename_i hloop
      exact LoopbackSpelling.ipv6 (hiff.mp hloop)
    · rename_i hloop
      intro host hsp
      obtain ⟨inner', heq, hinner, -⟩ := spelling_of_bracket hsp
      obtain rfl := (List.append_left_inj [93]).mp heq
      exact hloop (hiff.mpr hinner)
  | none =>
    simp only [hstrip, Option.ite_none_left_eq_some] at h
    obtain ⟨hbracket, h⟩ := h
    simp only [parseUnbracketed, bind, Option.bind_eq_some_iff, Prod.exists, pure,
      Option.ite_none_left_eq_some, Option.some.injEq] at h
    obtain ⟨port, explicit, -, host, ⟨-, hhost⟩, rfl⟩ := h
    refine parseRegName_agrees (fun hm => ?_) hhost
    simp only [Bool.or_eq_true, not_or, List.contains_iff_mem] at hbracket
    exact hbracket.1.1 (mem_of_mem_splitHostPort hm)

theorem toOption_eq_some {ε α : Type} {x : Except ε α} {a : α} (h : x.toOption = some a) :
    x = .ok a := by
  cases x with
  | error e => cases h
  | ok b => exact congrArg _ (Option.some.inj h)

theorem parseAuthority_port {value : Bytes} {defaultPort : Option Port} {portRequired : Bool}
    {parsed : ParsedAuthority} (h : parseAuthority value defaultPort portRequired = some parsed) :
    SpellsPort value defaultPort parsed.port := by
  unfold parseAuthority at h
  rw [Option.ite_none_left_eq_some] at h
  obtain ⟨-, h⟩ := h
  unfold SpellsPort portText
  cases hstrip : stripPrefix [91] value with
  | some inner =>
    simp only [hstrip, parseBracketed, bind, Option.bind_eq_some_iff, Prod.exists, pure,
      Option.some.injEq] at h
    obtain ⟨text, suffix, hsplit, port, explicit, hport, address, scope, -, rfl⟩ := h
    simp only [hsplit, Option.bind_some]
    unfold parseAuthorityPort at hport
    split at hport
    · rename_i t ht
      obtain ⟨p, hp, heq⟩ := Option.map_eq_some_iff.mp hport
      obtain ⟨rfl, -⟩ := Prod.mk.inj heq
      exact .inl ⟨t, ht, toOption_eq_some hp⟩
    · rename_i ht
      obtain ⟨-, hport⟩ := Option.ite_none_right_eq_some.mp hport
      obtain ⟨p, hp, heq⟩ := Option.map_eq_some_iff.mp hport
      obtain ⟨rfl, -⟩ := Prod.mk.inj heq
      exact .inr ⟨ht, hp⟩
  | none =>
    simp only [hstrip, Option.ite_none_left_eq_some] at h
    obtain ⟨-, h⟩ := h
    simp only [parseUnbracketed, bind, Option.bind_eq_some_iff, Prod.exists, pure,
      Option.ite_none_left_eq_some, Option.some.injEq] at h
    obtain ⟨port, explicit, hport, host, -, rfl⟩ := h
    unfold parsePortSuffix at hport
    split at hport
    · rename_i t ht
      obtain ⟨p, hp, heq⟩ := Option.map_eq_some_iff.mp hport
      obtain ⟨rfl, -⟩ := Prod.mk.inj heq
      exact .inl ⟨t, ht, toOption_eq_some hp⟩
    · rename_i ht
      obtain ⟨-, hport⟩ := Option.ite_none_left_eq_some.mp hport
      obtain ⟨p, hp, heq⟩ := Option.map_eq_some_iff.mp hport
      obtain ⟨rfl, -⟩ := Prod.mk.inj heq
      exact .inr ⟨ht, hp⟩

/-! ## The classifier -/

/-- Where a target with an authority can be classified. -/
inductive Routed (authority : Bytes) (defaultPort : Option Port) : Target → Prop
  | refused {target : Target} (h : target = .malformed ∨ target = .httpsAbsoluteRejected) :
      Routed authority defaultPort target
  | toLocal {target : Target} (t : LocalTarget)
      (h : target = .localHttp t ∨ target = .localConnect t)
      (spelled : LoopbackSpelling (hostText authority) t.canonicalAuthority.host)
      (port : SpellsPort authority defaultPort t.canonicalAuthority.port) :
      Routed authority defaultPort target
  | toPublic {target : Target} (t : PublicTarget)
      (h : target = .publicHttp t ∨ target = .publicConnect t)
      (unspelled : ∀ host, ¬ LoopbackSpelling (hostText authority) host) :
      Routed authority defaultPort target

theorem classifyAuthority_routed (value : Bytes) (scheme : Option AbsoluteScheme)
    (kind : RequestKind) (pathAndQuery : Bytes) :
    Routed value (scheme.map AbsoluteScheme.defaultPort)
      (classifyAuthority value scheme kind pathAndQuery) := by
  unfold classifyAuthority
  split
  · exact .refused (.inl rfl)
  · rename_i parsed hparsed
    have hagrees := parseAuthority_agrees hparsed
    have hport := parseAuthority_port hparsed
    split
    · exact .refused (.inr rfl)
    · split
      · rename_i host hhost
        rw [hhost] at hagrees
        cases kind with
        | http => exact .toLocal _ (.inl rfl) hagrees hport
        | connect => exact .toLocal _ (.inr rfl) hagrees hport
      · rename_i host hhost
        rw [hhost] at hagrees
        cases kind with
        | http => exact .toPublic _ (.inl rfl) hagrees
        | connect => exact .toPublic _ (.inr rfl) hagrees

theorem fromUtf8_eq_some {s t : Bytes} (h : fromUtf8 s = some t) : t = s :=
  (Option.ite_none_right_eq_some.mp h).2 |> Option.some.inj |>.symm

/-- A scheme does not start with a slash. -/
theorem splitAbsolute_slash (rest : Bytes) : splitAbsolute (47 :: rest) = none := by
  unfold splitAbsolute
  rw [Option.bind_eq_bind, Option.bind_eq_none_iff]
  rintro ⟨scheme, remainder⟩ hs
  have hscheme : parseScheme scheme = none := by
    obtain ⟨heq, -⟩ := splitOnce_eq_some.mp hs
    cases scheme with
    | nil => exact absurd (List.cons.inj heq).1 (by decide)
    | cons b scheme =>
      rw [← (List.cons.inj heq).1, parseScheme]
      exact if_pos (by rfl)
  simp only [hscheme]
  rfl

theorem classifyAuthority_https (value : Bytes) (kind : RequestKind) (pathAndQuery : Bytes) :
    classifyAuthority value (some .https) kind pathAndQuery = .malformed ∨
      classifyAuthority value (some .https) kind pathAndQuery = .httpsAbsoluteRejected := by
  unfold classifyAuthority
  split
  · exact .inl rfl
  · exact .inr (if_pos rfl)

/-- The port of a target that names none: an absolute target that is served is an `http` one. -/
def impliedPort (method : Method) : Option Port :=
  if method = Method.connect then none else some AbsoluteScheme.http.defaultPort

/-- **A target with an authority is refused, or routed by the spelling of its host.** -/
theorem classify_routed {method : Method} {rawTarget authority : Bytes}
    (h : targetAuthority method rawTarget = some authority) :
    Routed authority (impliedPort method) (classify method rawTarget) := by
  unfold targetAuthority at h
  unfold classify impliedPort
  by_cases hconnect : method = Method.connect
  · rw [if_pos hconnect] at h ⊢
    obtain rfl := Option.some.inj h
    rw [if_pos hconnect]
    unfold classifyConnect
    split
    · exact .refused (.inl rfl)
    · rename_i text htext
      rw [fromUtf8_eq_some htext]
      split
      · exact .refused (.inl rfl)
      · exact classifyAuthority_routed rawTarget none .connect []
  · rw [if_neg hconnect] at h ⊢
    rw [if_neg hconnect]
    obtain ⟨⟨scheme, text, path⟩, hsplit, rfl⟩ := Option.map_eq_some_iff.mp h
    split
    · rename_i hstar
      have hnone : splitAbsolute [42] = none := by decide
      rw [hstar, hnone] at hsplit
      cases hsplit
    · split
      · rename_i hslash
        obtain ⟨rest, rfl⟩ := List.head?_eq_some_iff.mp hslash
        rw [splitAbsolute_slash] at hsplit
        cases hsplit
      · unfold classifyAbsolute
        split
        · exact .refused (.inl rfl)
        · simp only [hsplit]
          split
          · exact .refused (.inl rfl)
          · rename_i text' htext
            rw [fromUtf8_eq_some htext]
            split
            · exact .refused (.inl rfl)
            · cases scheme with
              | http => exact classifyAuthority_routed text (some .http) .http path
              | https => exact .refused (classifyAuthority_https _ _ _)

theorem classifyAbsolute_unsplit {rawTarget : Bytes} (h : splitAbsolute rawTarget = none) :
    classifyAbsolute rawTarget = .malformed := by
  unfold classifyAbsolute
  split
  · rfl
  · rw [h]

/-- A target without an authority goes nowhere but to the proxy itself. -/
theorem classify_without_authority {method : Method} {rawTarget : Bytes}
    (h : targetAuthority method rawTarget = none) :
    classify method rawTarget = .malformed ∨ classify method rawTarget = .asterisk ∨
      ∃ t, classify method rawTarget = .direct t := by
  unfold targetAuthority at h
  unfold classify
  split at h
  · cases h
  · rename_i hconnect
    rw [if_neg hconnect]
    split
    · exact .inr (.inl rfl)
    · split
      · split
        · exact .inr (.inr ⟨_, rfl⟩)
        · exact .inl rfl
      · exact .inl (classifyAbsolute_unsplit (Option.map_eq_none_iff.mp h))

end Vhrn.Proxy
