import Vhrn.Proxy.Connect.RequestEncoding
import Vhrn.Proxy.Destinations
import Vhrn.Proxy.Server.Http1.WrittenHead
import Vhrn.Proxy.Server.Router

/-!
# What the origin reads of a request

The head that an origin is sent for an accepted request, read by the grammar that the proxy reads requests
with. It is one head and nothing is left over; its method, target and framing are those of the request, its
host is the destination, and its fields are those of the request that are not hop-by-hop, with `Via`.
-/

namespace Vhrn.Proxy

/-! ## The host -/

/-- The host field of a request to a destination. -/
def Destination.host : Destination → Bytes
  | .toPublic target => target.authority
  | .toLocal target => target.host

theorem LocalTarget.host_eq (target : LocalTarget) : target.host =
    authorityText (.localHost target.canonicalAuthority.host) none target.canonicalAuthority.port
      target.explicitPort := by
  unfold LocalTarget.host authorityText portTail
  cases target.explicitPort with
  | true => rfl
  | false =>
    have hdigits : (58 : UInt8) ∉ target.canonicalAuthority.port.display := fun h =>
      absurd (Port.display_byte h) (by decide)
    have hsplit : rsplitOnce 58 target.canonicalAuthority.display =
        some (target.canonicalAuthority.host.display, target.canonicalAuthority.port.display) :=
      rsplitOnce_eq_some.mpr ⟨rfl, hdigits⟩
    simp only [hsplit]
    exact (List.append_nil _).symm

theorem Destination.host_ofParsed {host : ParsedHost} {scope : Option Bytes}
    (h : host.Canonical scope) (port : Port) (explicitPort : Bool) (path : Bytes) :
    (ofParsed ⟨host, scope, port, explicitPort⟩ path).host =
      authorityText host scope port explicitPort := by
  cases host with
  | localHost host =>
    obtain rfl := h
    exact LocalTarget.host_eq _
  | publicHost host => exact canonicalPublicAuthority_eq host scope port explicitPort

section

open Vhrn.Ipv6Addr

theorem count_colon_fmtSubslice (chunk : List ℕ) :
    (fmtSubslice chunk).count 58 = chunk.length - 1 := by
  have hnumeral (n : ℕ) : (Numerals.numeral 16 n).count 58 = 0 :=
    List.count_eq_zero.mpr fun hmem =>
      absurd (Numerals.isHexDigit_of_mem_numeral hmem) (by decide)
  unfold fmtSubslice
  induction chunk with
  | nil => rfl
  | cons n chunk ih =>
    cases chunk with
    | nil => simp [hnumeral]
    | cons m chunk =>
      rw [List.map_cons, List.map_cons, List.intercalate_cons_cons, ← List.map_cons,
        List.count_append, List.count_append, hnumeral, ih]
      simp
      omega

/-- The text of an IPv6 address has at most eight colons. -/
theorem count_colon_display (address : Ipv6Addr) : address.display.count 58 ≤ 8 := by
  have hlen := length_segments address
  unfold display
  split
  · rename_i ipv4 _
    have hnone : ipv4.display.count 58 = 0 := List.count_eq_zero.mpr fun hmem => by
      rcases Octets.display_byte hmem with h | h
      · exact absurd h (by decide)
      · exact absurd h (by decide)
    rw [List.count_append, hnone]
    decide
  · obtain ⟨before, after, hsegments, hbefore⟩ := scanZeroes_segments address
    have hparts := congrArg List.length hsegments
    simp only [List.length_append, List.length_replicate, hlen] at hparts
    generalize scanZeroes ⟨0, 0⟩ ⟨0, 0⟩ 0 address.segments = run at *
    simp only
    split
    · rw [List.count_append, List.count_cons_self, List.count_cons_self, count_colon_fmtSubslice,
        count_colon_fmtSubslice, List.length_take, List.length_drop, hlen]
      omega
    · rw [count_colon_fmtSubslice, hlen]
      decide

end

variable [HttpCrate]

omit [HttpCrate] in
/-- The octets of canonical authorities as a library sees them. -/
theorem octet_host (b : UInt8) : (authorityOctet b = true → visibleOctet b = true ∧ b ≠ 44 ∧
      (Ascii.isWhitespace b || [64, 47, 63, 35].contains b) = false ∧ isSpace1 b = false ∧
        isOws b = false) ∧
    (zoneOctet b = true → literalOctet b = true ∧ b ≠ 58) ∧
      (isAddrByte b = true → literalOctet b = true) ∧
        (Ascii.isDigit b = true → visibleOctet b = true) := by
  revert b; exact forall_byte (by decide +kernel)

/-- A host without brackets, with an optional port. -/
theorem isAuthority_plain {text : Bytes} (hne : text ≠ []) (hall : text.all zoneOctet = true)
    (port : Port) (explicitPort : Bool) :
    HttpCrate.isAuthority (text ++ portTail port explicitPort) = true := by
  unfold portTail
  cases explicitPort with
  | true =>
    have hdigits : port.display.all Ascii.isDigit = true :=
      List.all_eq_true.mpr fun b hb => Port.display_byte hb
    exact HttpCrate.isAuthority_hostPort hne hall hdigits
  | false =>
    rw [if_neg Bool.false_ne_true, List.append_nil]
    exact HttpCrate.isAuthority_host hne hall

/-- A bracketed host, with an optional port. -/
theorem isAuthority_bracketed {inner : Bytes} (hall : ∀ b ∈ inner, literalOctet b = true)
    (hcount : inner.count 58 ≤ 8) (port : Port) (explicitPort : Bool) :
    HttpCrate.isAuthority (91 :: (inner ++ [93]) ++ portTail port explicitPort) = true := by
  have hinner : inner.all literalOctet = true := List.all_eq_true.mpr hall
  unfold portTail
  cases explicitPort with
  | true =>
    have hdigits : port.display.all Ascii.isDigit = true :=
      List.all_eq_true.mpr fun b hb => Port.display_byte hb
    have htext : 91 :: (inner ++ [93]) ++ 58 :: port.display =
        91 :: (inner ++ 93 :: 58 :: port.display) := by
      simp
    rw [if_pos rfl, htext]
    exact HttpCrate.isAuthority_literalPort hinner hcount hdigits
  | false =>
    rw [if_neg Bool.false_ne_true, List.append_nil]
    exact HttpCrate.isAuthority_literal hinner hcount

/-- **A canonical authority is an authority of the library.** -/
theorem isAuthority_authorityText {host : ParsedHost} {scope : Option Bytes}
    (h : host.Canonical scope) (port : Port) (explicitPort : Bool) :
    HttpCrate.isAuthority (authorityText host scope port explicitPort) = true := by
  have haddr (address : Ipv6Addr) {b : UInt8} (hb : b ∈ address.display) : literalOctet b = true :=
    (octet_host b).2.2.1 (Ipv6Addr.display_byte hb)
  rcases host with (_ | ⟨octets, loopback⟩ | _) | (name | address | address)
  · exact @isAuthority_plain _ (ascii "localhost") (by decide) (by decide) port explicitPort
  · exact isAuthority_plain (Octets.display_ne_nil octets) (Octets.display_zoneOctet octets) port
      explicitPort
  · refine @isAuthority_bracketed _ (ascii "::1") ?_ (by decide) port explicitPort
    exact List.all_eq_true.mp (by decide)
  · obtain ⟨rfl, hnot, -⟩ := h
    refine isAuthority_plain (fun hnil => hnot ?_) name.text_zoneOctet port explicitPort
    rw [show name.text = [] from hnil]
    rfl
  · obtain ⟨rfl, octets, -, rfl⟩ := h
    have hdisplay : (Ipv4Addr.ofOctets octets).display = octets.display := by
      rw [Ipv4Addr.display, Ipv4Addr.octets_ofOctets]
    refine @isAuthority_plain _ (Ipv4Addr.ofOctets octets).display ?_ ?_ port explicitPort
    · rw [hdisplay]
      exact Octets.display_ne_nil octets
    · rw [hdisplay]
      exact Octets.display_zoneOctet octets
  · cases scope with
    | none =>
      exact isAuthority_bracketed (fun b hb => haddr address hb) (count_colon_display address) port
        explicitPort
    | some zone =>
      obtain ⟨-, hzone⟩ := (h.2 zone rfl)
      have hoctet {b : UInt8} (hb : b ∈ zone) := (octet_host b).2.1 (List.all_eq_true.mp hzone b hb)
      have hnone : zone.count 58 = 0 := List.count_eq_zero.mpr fun hmem => (hoctet hmem).2 rfl
      refine @isAuthority_bracketed _ (address.display ++ ascii "%25" ++ zone) ?_ ?_ port
        explicitPort
      · intro b hb
        rcases List.mem_append.mp hb with hb | hb
        · rcases List.mem_append.mp hb with hb | hb
          · exact haddr address hb
          · exact List.all_eq_true.mp (show (ascii "%25").all literalOctet = true by decide) b hb
        · exact (hoctet hb).1
      · have hdisplay := count_colon_display address
        rw [List.count_append, List.count_append, hnone]
        exact hdisplay

/-- **The host field that is written is valid.** -/
theorem validHost_authorityText {host : ParsedHost} {scope : Option Bytes}
    (h : host.Canonical scope) (port : Port) (explicitPort : Bool) :
    ∃ value, HeaderValue.fromStr (authorityText host scope port explicitPort) = some value ∧
      value.asBytes = authorityText host scope port explicitPort ∧
        trimOws value.asBytes = value.asBytes ∧ validHost value = true := by
  have hoctet {b : UInt8} (hb : b ∈ authorityText host scope port explicitPort) :=
    (octet_host b).1 (authorityText_byte h hb)
  have hplain {b : UInt8} (hb : b ∈ authorityText host scope port explicitPort) :
      b < 128 ∧ isSpace1 b = false :=
    ⟨(authorityOctet_plain (authorityText_byte h hb)).1, (hoctet hb).2.2.2.1⟩
  have hvisible : (authorityText host scope port explicitPort).all visibleOctet = true :=
    List.all_eq_true.mpr fun b hb => (hoctet hb).1
  obtain ⟨value, hvalue, hbytes⟩ := HeaderValue.fromStr_visible hvisible
  refine ⟨value, hvalue, hbytes, ?_, ?_⟩
  · rw [hbytes]
    exact trimBy_eq_self (fun b hb => (hoctet (List.mem_of_mem_head? hb)).2.2.2.2) fun b hb =>
      (hoctet (List.mem_of_getLast? hb)).2.2.2.2
  have htext : value.toStr = some (authorityText host scope port explicitPort) := by
    rw [HeaderValue.toStr, HttpCrate.valueToStr_eq]
    rw [show HttpCrate.valueBytes value = _ from hbytes, if_pos hvisible]
  have htrim : trim (authorityText host scope port explicitPort) = _ :=
    trim_eq_self (fun b hb => hplain (List.mem_of_mem_head? hb)) fun b hb =>
      hplain (List.mem_of_getLast? hb)
  have hcomma : (authorityText host scope port explicitPort).contains 44 = false := by
    rw [List.contains_eq_mem, decide_eq_false_iff_not]
    exact fun hb => (hoctet hb).2.1 rfl
  have hmarks : (authorityText host scope port explicitPort).any
      (fun byte => Ascii.isWhitespace byte || [64, 47, 63, 35].contains byte) = false :=
    List.any_eq_false.mpr fun b hb => by simp only [(hoctet hb).2.2.1]; simp
  rw [validHost, htext]
  simp only [htrim, hcomma, hmarks, isAuthority_authorityText h]
  simp [authorityText_ne_nil h]

/-! ## The request line -/

omit [HttpCrate] in
/-- Octets of methods and of paths on a request line. -/
theorem octet_target (b : UInt8) :
    (tokenOctet b || uriOctet b || Ascii.isHexDigit b || b == 37) = true →
      requestLineOctet b = true ∧ b ≠ 32 ∧ Ascii.isControl b = false := by
  revert b; exact forall_byte (by decide +kernel)

omit [HttpCrate] in
theorem validUriOctets_byte {text : Bytes} (h : validUriOctets text = true) {b : UInt8}
    (hb : b ∈ text) : (tokenOctet b || uriOctet b || Ascii.isHexDigit b || b == 37) = true := by
  fun_induction validUriOctets text with
  | case1 => cases hb
  | case2 c d rest ih =>
    rw [Bool.and_eq_true, Bool.and_eq_true] at h
    simp only [List.mem_cons] at hb
    rcases hb with rfl | rfl | rfl | hb
    · simp
    · simp [h.1.1]
    · simp [h.1.2]
    · exact ih h.2 hb
  | case3 => cases h
  | case4 byte rest hne ih =>
    rw [Bool.and_eq_true] at h
    rcases List.mem_cons.mp hb with rfl | hb
    · simp [h.1]
    · exact ih h.2 hb

/-- The octets of a target that is written. -/
structure Written (target : Bytes) : Prop where
  ne_nil : target ≠ []
  octets : ∀ b ∈ target, requestLineOctet b = true ∧ b ≠ 32 ∧ Ascii.isControl b = false

omit [HttpCrate] in
theorem written_outboundPath {path : Bytes} (h : path = [] ∨ validAbsolutePathAndQuery path = true)
    (method : Method) : Written (outboundPath method path) := by
  have hpath : ∀ b ∈ path, requestLineOctet b = true ∧ b ≠ 32 ∧ Ascii.isControl b = false := by
    intro b hb
    rcases h with rfl | h
    · cases hb
    · rw [validAbsolutePathAndQuery, validPathAndQuery, Bool.and_eq_true, Bool.and_eq_true] at h
      exact octet_target b (validUriOctets_byte h.2.2 hb)
  unfold outboundPath
  split
  · exact ⟨List.cons_ne_nil _ _, List.forall_mem_singleton.mpr (by decide)⟩
  split
  · exact ⟨List.cons_ne_nil _ _, List.forall_mem_singleton.mpr (by decide)⟩
  split
  · refine ⟨List.cons_ne_nil _ _, fun b hb => ?_⟩
    rcases List.mem_cons.mp hb with rfl | hb
    · decide
    · exact hpath b hb
  · rename_i hne _
    exact ⟨hne, hpath⟩

omit [HttpCrate] in
theorem length_outboundPath (method : Method) (path : Bytes) :
    (outboundPath method path).length ≤ path.length + 1 := by
  unfold outboundPath
  split
  · exact Nat.le_add_left 1 _
  split
  · exact Nat.le_add_left 1 _
  split
  · exact le_rfl
  · exact Nat.le_succ _

omit [HttpCrate] in
/-- The path of a forwarded request is what follows the authority of its target. -/
theorem splitAbsolute_path {method : Method} {rawTarget : Bytes} {d : Destination}
    (hconnect : method ≠ Method.connect) (h : (classify method rawTarget).destination = some d) :
    ∃ scheme authority, splitAbsolute rawTarget = some (scheme, authority, d.pathAndQuery) ∧
      (d.pathAndQuery = [] ∨ validAbsolutePathAndQuery d.pathAndQuery = true) := by
  obtain ⟨-, -, -, -, -, -, -, hpath, -⟩ := destination_denotes h
  rw [classify, if_neg hconnect] at h
  split at h
  · cases h
  · split at h
    · split at h <;> cases h
    · unfold classifyAbsolute at h
      split at h
      · cases h
      · split at h
        · cases h
        · rename_i scheme authority path hsplit
          refine ⟨scheme, authority, ?_, hpath⟩
          split at h
          · cases h
          · split at h
            · cases h
            · cases scheme with
              | http =>
                rw [classifyAuthority_destination (by decide)] at h
                obtain ⟨parsed, -, rfl⟩ := Option.map_eq_some_iff.mp h
                rw [Destination.pathAndQuery_ofParsed]
                exact hsplit
              | https =>
                rw [classifyAuthority_https_destination] at h
                cases h

omit [HttpCrate] in
/-- A target in origin form is no longer than the target it comes from. -/
theorem length_path {rawTarget authority path : Bytes} {scheme : AbsoluteScheme}
    (h : splitAbsolute rawTarget = some (scheme, authority, path)) :
    path.length + 1 ≤ rawTarget.length := by
  simp only [splitAbsolute, bind, Option.bind_eq_some_iff, Prod.exists, pure, Option.some.injEq,
    Prod.mk.injEq] at h
  obtain ⟨schemeText, remainder, hsplit, _, -, rest, hrest, -, -, rfl⟩ := h
  have hle := (List.dropWhile_sublist (fun b => !endsAuthority b) (l := rest)).length_le
  have hremainder := congrArg List.length (stripPrefix_eq_some.mp hrest)
  rw [(splitOnce_eq_some.mp hsplit).1]
  simp only [List.length_append, List.length_cons, List.length_nil] at hremainder ⊢
  omega

/-! ## The fields -/

theorem ofStatic_ne {bytes bytes' : Bytes}
    {h : (validToken bytes && decide (bytes.length ≤ 65535)) = true}
    {h' : (validToken bytes' && decide (bytes'.length ≤ 65535)) = true}
    (hne : lower bytes ≠ lower bytes') : HeaderName.ofStatic bytes h ≠ HeaderName.ofStatic bytes' h' :=
  fun heq => hne (by rw [← HeaderName.asStr_ofStatic h, heq, HeaderName.asStr_ofStatic h'])

/-- The fields of a request that may pass a hop. -/
def passing (headers : HeaderMap) (nominated : List HeaderName) (name : HeaderName) :
    List HeaderValue :=
  if name = .connection then [] else forwardedValues nominated (some headers) name

theorem passing_eq (headers : HeaderMap) (nominated : List HeaderName) (name : HeaderName) :
    passing headers nominated name =
      if name = .connection ∨ name ∈ nominated ∨ name ∈ fixedHopHeaders then [] else headers.getAll name := by
  unfold passing forwardedValues
  by_cases hconnection : name = .connection
  · rw [if_pos hconnection, if_pos (.inl hconnection)]
  · simp only [hconnection, if_false, false_or, or_comm]

/-- The values that the origin is sent for a name. -/
def outboundValues (head : RequestHead) (nominated : List HeaderName) (host : HeaderValue)
    (name : HeaderName) : List HeaderValue :=
  if name = .host then [host]
  else if name = .contentLength then
    match head.framing with
    | .contentLength length => [lengthValue length]
    | .none | .chunked => []
  else if name = .transferEncoding then
    if head.framing = .chunked then head.headers.getAll .transferEncoding else []
  else if name = .via then passing head.headers nominated .via ++ [viaValue head.version]
  else if name = .expect ∧ head.version = .http10 then []
  else passing head.headers nominated name

theorem getAll_foldl_append (values : List HeaderValue) (headers : HeaderMap) (name k : HeaderName) :
    (values.foldl (·.append name ·) headers).getAll k =
      if k = name then headers.getAll k ++ values else headers.getAll k := by
  induction values generalizing headers with
  | nil => simp
  | cons value values ih =>
    rw [List.foldl_cons, ih, HeaderMap.getAll, HttpCrate.getAll_append]
    by_cases hk : k = name
    · simp [hk]
    · simp [hk]

theorem fromStr_decimal (length : ℕ) :
    HeaderValue.fromStr (Numerals.decimal length) = some (lengthValue length) := by
  have hvisible : (Numerals.decimal length).all visibleOctet = true :=
    List.all_eq_true.mpr fun b hb => (octet_host b).2.2.2 (Numerals.isDigit_of_mem_decimal hb)
  obtain ⟨value, hvalue, hbytes⟩ := HeaderValue.fromStr_visible hvisible
  rw [hvalue]
  refine congrArg some (HeaderValue.asBytes_injective ?_)
  rw [hbytes, lengthValue, HeaderValue.asBytes_ofStatic]

/-- The names that the proxy writes itself are different. -/
theorem written_names : (HeaderName.host ≠ .via ∧ HeaderName.host ≠ .contentLength ∧
      HeaderName.host ≠ .transferEncoding ∧ HeaderName.host ≠ .connection) ∧
    (HeaderName.via ≠ .contentLength ∧ HeaderName.via ≠ .transferEncoding ∧
      HeaderName.via ≠ .connection ∧ HeaderName.via ≠ .expect) ∧
    (HeaderName.contentLength ≠ .transferEncoding ∧ HeaderName.contentLength ≠ .connection) ∧
      HeaderName.transferEncoding ≠ .connection ∧ HeaderName.expect ≠ .connection := by
  refine ⟨⟨?_, ?_, ?_, ?_⟩, ⟨?_, ?_, ?_, ?_⟩, ⟨?_, ?_⟩, ?_, ?_⟩ <;>
    exact ofStatic_ne (by decide)

/-- The fields before those of the framing. -/
theorem getAll_unframed (headers : HeaderMap) (version : Version) (value : HeaderValue)
    (name : HeaderName) :
    (appendVia (((((if version = .http10 then headers.remove .expect else headers).remove
      .host).remove .contentLength).remove .transferEncoding).insert .host value) version).getAll name =
      if name = .host then [value]
      else if name = .contentLength ∨ name = .transferEncoding then []
      else if name = .via then headers.getAll .via ++ [viaValue version]
      else if name = .expect ∧ version = .http10 then []
      else headers.getAll name := by
  have hexpect : HttpCrate.getAll (if version = .http10 then headers.remove .expect else headers) name =
      if name = .expect ∧ version = .http10 then [] else headers.getAll name := by
    by_cases hversion : version = .http10
    · rw [if_pos hversion, HttpCrate.getAll_remove]
      simp [hversion]
    · rw [if_neg hversion, if_neg fun h => hversion h.2]
  rw [getAll_appendVia, HeaderMap.getAll, HttpCrate.getAll_insert, HttpCrate.getAll_remove,
    HttpCrate.getAll_remove, HttpCrate.getAll_remove, hexpect]
  obtain ⟨⟨hvia, -⟩, ⟨hlength, hcodings, -, hnot⟩, -⟩ := written_names
  by_cases hname : name = .via
  · subst hname
    simp [Ne.symm hvia, hlength, hcodings, hnot]
  · by_cases hhost : name = .host
    · simp [hhost, hvia]
    · simp only [hname, hhost, if_false]
      by_cases hframing : name = .contentLength ∨ name = .transferEncoding
      · rcases hframing with h | h <;> simp [h]
      · obtain ⟨h, h'⟩ := not_or.mp hframing
        simp [h, h']

/-- **The fields that the origin is sent**, for each name. -/
theorem outboundHeaders_spec {head : RequestHead} {nominated : List HeaderName} {host : Bytes}
    {value : HeaderValue} (hnominated : connectionNominations head.headers = some nominated)
    (hvalue : HeaderValue.fromStr host = some value) :
    ∃ headers, outboundHeaders head host = some headers ∧
      ∀ name, headers.getAll name = outboundValues head nominated value name := by
  obtain ⟨sanitized, hsanitized⟩ : ∃ sanitized, sanitizeHopByHop head.headers = some sanitized := by
    rw [sanitizeHopByHop, hnominated]
    exact ⟨_, rfl⟩
  have hpassing (name : HeaderName) : sanitized.getAll name = passing head.headers nominated name :=
    (getAll_sanitizeHopByHop hnominated hsanitized name).trans (passing_eq _ _ _).symm
  have hbase := getAll_unframed sanitized head.version value
  simp only [hpassing] at hbase
  unfold outboundHeaders
  simp only [hsanitized, hvalue, bind, Option.bind_some]
  generalize appendVia (HeaderMap.insert _ .host value) head.version = base at hbase ⊢
  obtain ⟨⟨-, hlength, hcodings, -⟩, ⟨hlength', hcodings', -⟩, ⟨hne, -⟩, -⟩ := written_names
  unfold outboundValues appendFraming
  cases head.framing with
  | none =>
    refine ⟨base, rfl, fun name => ?_⟩
    rw [hbase]
    by_cases h : name = .contentLength
    · simp [h]
    · simp [h]
  | contentLength length =>
    simp only [fromStr_decimal, Option.map_some]
    refine ⟨_, rfl, fun name => ?_⟩
    rw [HeaderMap.getAll, HttpCrate.getAll_insert, ← HeaderMap.getAll, hbase]
    by_cases h : name = .contentLength
    · simp [h, Ne.symm hlength]
    · simp [h]
  | chunked =>
    refine ⟨_, rfl, fun name => ?_⟩
    rw [getAll_foldl_append, hbase]
    by_cases h : name = .transferEncoding
    · simp [h, Ne.symm hcodings, Ne.symm hne]
    · by_cases h' : name = .contentLength
      · simp [h', hne]
      · simp [h, h']

theorem asBytes_lengthValue (length : ℕ) : (lengthValue length).asBytes = Numerals.decimal length :=
  HeaderValue.asBytes_ofStatic _

omit [HttpCrate] in
/-- A numeral has no blanks and no commas. -/
theorem trimOws_decimal (length : ℕ) : trimOws (Numerals.decimal length) = Numerals.decimal length := by
  have hoctet {b : UInt8} (hb : b ∈ Numerals.decimal length) : isOws b = false := by
    have hdigit := Numerals.isDigit_of_mem_decimal hb
    rw [← Bool.not_eq_true]
    intro hows
    simp only [isOws, Bool.or_eq_true, beq_iff_eq] at hows
    rcases hows with rfl | rfl <;> exact absurd hdigit (by decide)
  exact trimBy_eq_self (fun b hb => hoctet (List.mem_of_mem_head? hb)) fun b hb =>
    hoctet (List.mem_of_getLast? hb)

/-- **A length that is written is the length that is read.** -/
theorem fixedLength_lengthValue {length : ℕ} (h : length < 2 ^ 64) :
    FixedLength [lengthValue length] length := by
  refine ⟨List.cons_ne_nil _ _, h, fun value hvalue member hmember => ?_⟩
  have hcomma : (44 : UInt8) ∉ Numerals.decimal length := fun hmem =>
    absurd (Numerals.isDigit_of_mem_decimal hmem) (by decide)
  rw [List.mem_singleton.mp hvalue, asBytes_lengthValue, List.splitOn_eq_singleton hcomma] at hmember
  rw [List.mem_singleton.mp hmember, trimOws_decimal]
  exact ⟨Numerals.numeral_ne_nil length, fun b hb => Numerals.isDigit_of_mem_decimal hb,
    Numerals.value_numeral (by decide) (by decide) length⟩

/-- The fields that the origin is sent have no blanks around their values. -/
theorem trimmed_outbound {head : RequestHead} {nominated : List HeaderName} {value : HeaderValue}
    {headers : HeaderMap} (htrimmed : Trimmed head.headers)
    (hhost : trimOws value.asBytes = value.asBytes)
    (h : ∀ name, headers.getAll name = outboundValues head nominated value name) : Trimmed headers := by
  have hpassing (name : HeaderName) {v : HeaderValue} (hv : v ∈ passing head.headers nominated name) :
      trimOws v.asBytes = v.asBytes := by
    rw [passing_eq] at hv
    split at hv
    · cases hv
    · exact htrimmed name v hv
  intro name v hv
  rw [h] at hv
  unfold outboundValues at hv
  split at hv
  · rw [List.mem_singleton.mp hv]
    exact hhost
  split at hv
  · split at hv
    · rw [List.mem_singleton.mp hv]
      rw [asBytes_lengthValue]
      exact trimOws_decimal _
    all_goals cases hv
  split at hv
  · split at hv
    · exact htrimmed _ v hv
    · cases hv
  split at hv
  · rcases List.mem_append.mp hv with hv | hv
    · exact hpassing _ hv
    · rw [List.mem_singleton.mp hv]
      cases head.version <;> rw [viaValue, HeaderValue.asBytes_ofStatic] <;> decide
  split at hv
  · cases hv
  · exact hpassing _ hv

/-- **The framing of the fields that the origin is sent is that of the request.** -/
theorem parseFraming_outbound {head : RequestHead} {nominated : List HeaderName} {value : HeaderValue}
    {headers : HeaderMap} (hframing : parseFraming head.headers = .ok head.framing)
    (h : ∀ name, headers.getAll name = outboundValues head nominated value name) :
    parseFraming headers = .ok head.framing := by
  obtain ⟨⟨-, hlength, hcodings, -⟩, -, ⟨hne, -⟩, -⟩ := written_names
  obtain ⟨hchunked, hfixed, hnone, -⟩ := framing_iff headers
  obtain ⟨hchunked', hfixed', hnone', -⟩ := framing_iff head.headers
  have hlengths := h .contentLength
  have htransfer := h .transferEncoding
  simp only [outboundValues, Ne.symm hlength, Ne.symm hcodings, Ne.symm hne, if_false, if_true]
    at hlengths htransfer
  cases hf : head.framing with
  | chunked =>
    rw [hf] at hframing hlengths htransfer
    rw [hchunked, hlengths, htransfer]
    exact ⟨(hchunked'.mp hframing).1, rfl⟩
  | none =>
    rw [hf] at hframing hlengths htransfer
    rw [hnone, hlengths, htransfer]
    exact ⟨rfl, rfl⟩
  | contentLength length =>
    rw [hf] at hframing hlengths htransfer
    rw [hfixed, hlengths, htransfer]
    exact ⟨rfl, fixedLength_lengthValue ((hfixed' length).mp hframing).2.2.1⟩

/-- Nothing is nominated anew. -/
theorem connection_outbound {head : RequestHead} {nominated : List HeaderName} {value : HeaderValue}
    {headers : HeaderMap} (h : ∀ name, headers.getAll name = outboundValues head nominated value name) :
    headers.getAll .connection = [] := by
  obtain ⟨⟨-, -, -, hhost⟩, ⟨-, -, hvia, -⟩, ⟨-, hlength⟩, hcodings, -⟩ := written_names
  rw [h, outboundValues, if_neg (Ne.symm hhost), if_neg (Ne.symm hlength), if_neg (Ne.symm hcodings),
    if_neg (Ne.symm hvia)]
  simp [passing]

/-! ## Nominated names -/

omit [HttpCrate] in
theorem length_crlfLines (text : Bytes) :
    ((crlfLines text).1.map fun line => line.length + 2).sum ≤ text.length := by
  fun_induction crlfLines text with
  | case1 rest ih =>
    rw [List.map_cons, List.sum_cons, List.length_cons, List.length_cons, List.length_nil]
    omega
  | case2 byte rest hnot last hlines ih => exact Nat.zero_le _
  | case3 byte rest hnot line lines last hlines ih =>
    rw [hlines] at ih
    simp only [List.map_cons, List.sum_cons, List.length_cons] at ih ⊢
    omega
  | case4 => exact le_rfl

theorem sectionOctets_parseFieldLines {headers headers' : HeaderMap} {lines : List Bytes}
    (h : parseFieldLines headers lines = .ok headers') :
    sectionOctets headers' ≤ sectionOctets headers + (lines.map fun line => line.length + 2).sum := by
  induction lines generalizing headers with
  | nil =>
    obtain rfl := Except.ok.inj h
    exact Nat.le_add_right _ _
  | cons line lines ih =>
    unfold parseFieldLines at h
    split at h
    · split at h
      · obtain rfl := Except.ok.inj h
        exact Nat.le_add_right _ _
      · cases h
    · cases hline : appendFieldLine headers line with
      | error error =>
        rw [hline] at h
        cases h
      | ok next =>
        rw [hline] at h
        have hle := ih h
        have hfield := sectionOctets_appendFieldLine hline
        rw [List.map_cons, List.sum_cons]
        omega

/-- **The fields of a section take no more octets than the section.** -/
theorem sectionOctets_parseFields {headerSection : Bytes} {headers : HeaderMap}
    (h : parseFields headerSection = .ok headers) : sectionOctets headers ≤ headerSection.length := by
  unfold parseFields at h
  split at h
  · cases h
  · have hle := sectionOctets_parseFieldLines h
    have hlines := length_crlfLines headerSection
    rw [sectionOctets_empty] at hle
    omega

theorem length_value_le {headers : HeaderMap} {name : HeaderName} {value : HeaderValue}
    (h : value ∈ headers.getAll name) :
    name.asStr.length + value.asBytes.length + 3 ≤ sectionOctets headers := by
  have hmem := HeaderMap.mem_fields.mpr h
  have hle : fieldOctets (name, value) ≤ headerFieldBytes headers :=
    List.single_le_sum (fun _ _ => Nat.zero_le _) _ (List.mem_map_of_mem hmem)
  have hpos := List.length_pos_of_mem hmem
  simp only [fieldOctets] at hle
  unfold sectionOctets
  omega

omit [HttpCrate] in
theorem exists_mapM {α β : Type} {f : α → Option β} {l : List α} (h : ∀ a ∈ l, ∃ b, f a = some b) :
    ∃ bs, l.mapM f = some bs := by
  induction l with
  | nil => exact ⟨[], rfl⟩
  | cons a l ih =>
    obtain ⟨b, hb⟩ := h a List.mem_cons_self
    obtain ⟨bs, hbs⟩ := ih fun a' ha => h a' (List.mem_cons_of_mem _ ha)
    exact ⟨b :: bs, by rw [List.mapM_cons, hb, hbs]; rfl⟩

/-- **What the `Connection` fields of an accepted head nominate are names.** -/
theorem nominations_of_tokens {headers : HeaderMap} {tokens : List Bytes}
    (htokens : commaTokens headers .connection = .ok tokens)
    (hshort : sectionOctets headers ≤ headerSectionLimit) :
    ∃ nominated, connectionNominations headers = some nominated := by
  have hlimit : headerSectionLimit ≤ 65535 + 3 := by decide
  unfold commaTokens at htokens
  simp only at htokens
  split at htokens
  · rename_i hall
    rw [List.all_eq_true] at hall
    refine exists_mapM fun token htoken => ?_
    obtain ⟨value, hvalue, hmember⟩ := List.mem_flatMap.mp htoken
    obtain ⟨member, hsplit, rfl⟩ := List.mem_map.mp hmember
    have hle := length_value_le hvalue
    have hpart := length_le_of_mem_splitOn hsplit
    have htrim : (trimOws member).length ≤ member.length := (trimBy_sublist isOws member).length_le
    rw [if_pos (hall _ htoken)]
    exact Option.isSome_iff_exists.mp
      (HttpCrate.nameFromBytes_isSome (hall _ htoken) (by omega))
  · cases htokens

/-! ## The head that is read -/

variable {content followed : Bytes} {head : RequestHead} {isHead : Bool}

/-- Where the parts of an accepted head stand in the stream. -/
theorem headOfContent_eq_ok (h : headOfContent content = (.ok (some (head, followed)), isHead)) :
    ∃ requestLine headerSection, parseHead requestLine headerSection = .ok head ∧
      isHead = requestLineIsHead requestLine ∧ requestLine.length ≤ requestLineLimit ∧
        headerSection.length ≤ headerSectionLimit := by
  unfold headOfContent at h
  split at h
  · have hfst := (Prod.mk.inj h).1
    split at hfst <;> cases hfst
  · rename_i lineLength hline
    simp only at h
    split at h
    · cases h
    · rename_i headLength hhead
      split at h
      · cases h
      · rename_i parsed hparse
        obtain ⟨hfst, rfl⟩ := Prod.mk.inj h
        obtain ⟨rfl, -⟩ := Prod.mk.inj (Option.some.inj (Except.ok.inj hfst))
        obtain ⟨hfind, -⟩ := Search.ofContent_le hline
        obtain ⟨hfind', -⟩ := Search.ofContent_le hhead
        have hle := requestLineSearch.finds.le hfind
        have hle' := (headSearch lineLength).finds.le hfind'
        obtain ⟨m, -, rfl⟩ := Option.map_eq_some_iff.mp hfind'
        rw [List.length_take] at hle hle'
        refine ⟨_, _, hparse, ?_, ?_, ?_⟩
        · rw [List.take_take, Nat.min_eq_left (Nat.le_add_right _ _)]
        · rw [List.length_take]
          omega
        · rw [List.length_drop, List.length_take]
          omega

/-- The request line of an accepted head. -/
theorem parseHead_line {requestLine headerSection : Bytes}
    (h : parseHead requestLine headerSection = .ok head) :
    HttpCrate.isMethod head.method = true ∧
      requestLineIsHead requestLine = (head.method == Method.head) ∧
        head.method.length + head.rawTarget.length + 12 = requestLine.length := by
  obtain ⟨version, tokens, hline, hversion, -⟩ := parseHead_eq_ok h
  obtain ⟨text, hstrip, hparts⟩ := Option.map_eq_some_iff.mp hline
  have hmethod : HttpCrate.isMethod head.method = true := by
    unfold parseHead at h
    rw [hline] at h
    simp only [bind, Except.bind, throw, throwThe, MonadExceptOf.throw, pure, Except.pure] at h
    split at h
    · cases h
    split at h
    · cases h
    rename_i hnot
    simpa using hnot
  have hspace : (32 : UInt8) ∉ head.method :=
    not_mem_of_mem_splitOn (s := text) (by rw [hparts]; exact List.mem_cons_self)
  have htext : text = head.method ++ 32 :: (head.rawTarget ++ 32 :: version) := by
    have hjoin : [(32 : UInt8)].intercalate (text.splitOn 32) = text := List.intercalate_splitOn 32
    rw [hparts] at hjoin
    rw [← hjoin]
    simp [List.intercalate]
  refine ⟨hmethod, ?_, ?_⟩
  · rw [stripSuffix_eq_some.mp hstrip, htext, requestLineIsHead, List.append_assoc, List.cons_append,
      List.splitOn_append_cons_self_of_not_mem hspace]
    exact Option.some_beq_some
  · have hlength : version.length = 8 := by
      unfold parseVersion at hversion
      split at hversion
      · rename_i h10
        rw [h10]
        rfl
      · split at hversion
        · rename_i h11
          rw [h11]
          rfl
        · split at hversion <;> cases hversion
    rw [stripSuffix_eq_some.mp hstrip, htext]
    simp only [List.length_append, List.length_cons, hlength, crlf, List.length_nil]
    omega

/-- **A head is read from the parts it is written of.** -/
theorem parseHead_written {method target headerSection : Bytes} {headers : HeaderMap}
    {framing : BodyFraming} (hmethod : HttpCrate.isMethod method = true) (htarget : Written target)
    (hheaders : parseFields headerSection = .ok headers)
    (hhost : validateHost .http11 headers = .ok ()) (hframing : parseFraming headers = .ok framing)
    (hconnection : headers.getAll .connection = []) :
    parseHead (method ++ 32 :: target ++ ascii " HTTP/1.1" ++ crlf) headerSection =
      .ok { method, rawTarget := target, version := .http11, headers, framing, close := false,
            upgrade := headers.contains .upgrade, expect := headers.contains .expect } := by
  have htoken := HttpCrate.isMethod_token hmethod
  have hspace : (32 : UInt8) ∉ method := fun hmem =>
    absurd (validToken_octet htoken hmem) (by decide)
  have hspace' : (32 : UInt8) ∉ target := fun hmem => (htarget.octets 32 hmem).2.1 rfl
  have hcontrol : target.any Ascii.isControl = false :=
    List.any_eq_false.mpr fun b hb => Bool.not_eq_true _ ▸ (htarget.octets b hb).2.2
  have hstrip : stripSuffix crlf (method ++ 32 :: target ++ ascii " HTTP/1.1" ++ crlf) =
      some (method ++ 32 :: (target ++ 32 :: ascii "HTTP/1.1")) := by
    rw [stripSuffix_append, show ascii " HTTP/1.1" = 32 :: ascii "HTTP/1.1" from rfl]
    simp
  have hparts : (method ++ 32 :: (target ++ 32 :: ascii "HTTP/1.1")).splitOn 32 =
      [method, target, ascii "HTTP/1.1"] := by
    rw [List.splitOn_append_cons_self_of_not_mem hspace,
      List.splitOn_append_cons_self_of_not_mem hspace', List.splitOn_eq_singleton (by decide)]
  have hversion : parseVersion (ascii "HTTP/1.1") = .ok .http11 := by decide
  have htokens : commaTokens headers .connection = .ok [] := by
    rw [commaTokens, hconnection]
    rfl
  rw [parseHead, hstrip, Option.map_some, hparts]
  simp only [hmethod, hcontrol, hversion, hheaders, hhost, hframing, htokens, bind, Except.bind, pure,
    Except.pure, throw, throwThe, MonadExceptOf.throw]
  have hne : ascii "HTTP/1.1" ≠ [] := by decide
  simp [validToken_ne_nil htoken, htarget.ne_nil, hne]
  rfl

/-- The head that the origin reads for a request. -/
structure ReadAs (head : RequestHead) (nominated : List HeaderName) (path : Bytes) (host : HeaderValue)
    (outbound : RequestHead) : Prop where
  method : outbound.method = head.method
  target : outbound.rawTarget = outboundPath head.method path
  version : outbound.version = .http11
  framing : outbound.framing = head.framing
  close : outbound.close = false
  fields : ∀ name, outbound.headers.getAll name = outboundValues head nominated host name

/-- The first line of an outbound request, without its end. -/
def outboundLine (head : RequestHead) (pathAndQuery : Bytes) : Bytes :=
  head.method ++ 32 :: outboundPath head.method pathAndQuery ++ ascii " HTTP/1.1"

theorem length_outboundLine (head : RequestHead) (pathAndQuery : Bytes) :
    (outboundLine head pathAndQuery ++ crlf).length =
      head.method.length + (outboundPath head.method pathAndQuery).length + 12 := by
  have hversion : (ascii " HTTP/1.1" ++ crlf).length = 11 := rfl
  simp only [outboundLine, List.append_assoc, List.length_append, List.length_cons] at hversion ⊢
  omega

theorem outboundLine_octets {pathAndQuery : Bytes} (hmethod : HttpCrate.isMethod head.method = true)
    (htarget : Written (outboundPath head.method pathAndQuery)) :
    (outboundLine head pathAndQuery).all requestLineOctet = true := by
  refine List.all_eq_true.mpr fun b hb => ?_
  simp only [outboundLine, List.mem_append, List.mem_cons] at hb
  rcases hb with (hb | rfl | hb) | hb
  · have htoken := validToken_octet (HttpCrate.isMethod_token hmethod) hb
    exact (octet_target b (by simp [htoken])).1
  · decide
  · exact (htarget.octets b hb).1
  · exact List.all_eq_true.mp (show (ascii " HTTP/1.1").all requestLineOctet = true by decide) b hb

theorem serializeRequestHead_eq {pathAndQuery host : Bytes} {headers : HeaderMap}
    (h : outboundHeaders head host = some headers) : serializeRequestHead head pathAndQuery host =
      some (headText (outboundLine head pathAndQuery) (headers.fields.map fieldText)) := by
  rw [serializeRequestHead, h, Option.map_some, List.append_assoc _ (fieldLines headers),
    ← sectionText_fields]
  rfl

/-- The line and the fields of the request that the origin is sent, and what they are read as. -/
theorem outbound_text {d : Destination}
    (hhead : headOfContent content = (.ok (some (head, followed)), isHead))
    (hconnect : head.method ≠ Method.connect)
    (hd : (classify head.method head.rawTarget).destination = some d) :
    ∃ nominated host outbound headers, connectionNominations head.headers = some nominated ∧
      host.asBytes = d.host ∧ outboundHeaders head d.host = some headers ∧
      ReadAs head nominated d.pathAndQuery host outbound ∧
      (outboundLine head d.pathAndQuery).all requestLineOctet = true ∧
      (outboundLine head d.pathAndQuery ++ crlf).length ≤ requestLineLimit ∧
      parseHead (outboundLine head d.pathAndQuery ++ crlf) (fieldLines headers ++ crlf) = .ok outbound ∧
      requestLineIsHead (outboundLine head d.pathAndQuery ++ crlf) = isHead := by
  obtain ⟨requestLine, headerSection, hparse, rfl, hlineLength, hsectionLength⟩ :=
    headOfContent_eq_ok hhead
  obtain ⟨version, tokens, -, -, hheaders, hframing, htokens, -⟩ := parseHead_eq_ok hparse
  obtain ⟨hmethod, hmark, hlength⟩ := parseHead_line hparse
  obtain ⟨nominated, hnominated⟩ := nominations_of_tokens htokens
    ((sectionOctets_parseFields hheaders).trans hsectionLength)
  obtain ⟨scheme, authority, hsplit, hpath⟩ := splitAbsolute_path hconnect hd
  obtain ⟨parsedHost, scope, port, explicitPort, hparsed, hcanonical, -⟩ := destination_denotes hd
  have hhostText : d.host = authorityText parsedHost scope port explicitPort := by
    rw [hparsed]
    exact Destination.host_ofParsed hcanonical _ _ _
  obtain ⟨host, hvalue, hbytes, htrimmed, hvalid⟩ := validHost_authorityText hcanonical port explicitPort
  rw [← hhostText] at hvalue hbytes
  obtain ⟨headers, hwritten, hfields⟩ := outboundHeaders_spec hnominated hvalue
  obtain ⟨parsed, hsection, hsame⟩ := parseFields_fieldLines
    (trimmed_outbound (trimmed_parseFields hheaders) htrimmed hfields)
  have hfields' (name : HeaderName) : parsed.getAll name = outboundValues head nominated host name :=
    (hsame name).trans (hfields name)
  have htarget := written_outboundPath hpath head.method
  have hhosts : validateHost .http11 parsed = .ok () := by
    have hone : parsed.getAll .host = [host] := by
      rw [hfields', outboundValues, if_pos rfl]
    rw [validateHost, hone]
    simp [hvalid]
  have hread := parseHead_written hmethod htarget hsection hhosts
    (parseFraming_outbound hframing hfields') (connection_outbound hfields')
  have hfits : (outboundLine head d.pathAndQuery ++ crlf).length ≤ requestLineLimit := by
    have hpathLength := length_outboundPath head.method d.pathAndQuery
    have hshort := length_path hsplit
    have hwhole := length_outboundLine head d.pathAndQuery
    omega
  refine ⟨nominated, host, _, headers, hnominated, hbytes, hwritten, ?_,
    outboundLine_octets hmethod htarget, hfits, hread, ?_⟩
  · exact ⟨rfl, rfl, rfl, rfl, rfl, hfields'⟩
  · rw [hmark]
    exact (parseHead_line hread).2.1

/-- **The request head that the origin is sent is one head**, whatever follows it: that of the accepted
request, for the destination of its target. It is always written. A reader with the limits of the proxy
refuses it only when it has become too long. -/
theorem outbound_head {d : Destination}
    (hhead : headOfContent content = (.ok (some (head, followed)), isHead))
    (hconnect : head.method ≠ Method.connect)
    (hd : (classify head.method head.rawTarget).destination = some d) :
    ∃ nominated host outbound bytes, connectionNominations head.headers = some nominated ∧
      host.asBytes = d.host ∧ serializeRequestHead head d.pathAndQuery d.host = some bytes ∧
      ReadAs head nominated d.pathAndQuery host outbound ∧
      ((∀ rest, headOfContent (bytes ++ rest) = (.ok (some (outbound, rest)), isHead)) ∨
        headerSectionLimit < bytes.length ∧
          ∀ rest, headOfContent (bytes ++ rest) = (.error .headersTooLarge, isHead)) := by
  obtain ⟨nominated, host, outbound, headers, hnominated, hhost, hwritten, hread, hline, hfits, hparse,
    hmark⟩ := outbound_text hhead hconnect hd
  exact ⟨nominated, host, outbound, _, hnominated, hhost, serializeRequestHead_eq hwritten, hread,
    hmark ▸ headOfContent_fields hline hfits hparse⟩

omit [HttpCrate] in
/-- A request without a body is accepted. -/
theorem accepted_example : let _ := HttpCrate.reference
    ∃ (head : RequestHead) (d : Destination) (isHead : Bool) (octets : Bytes),
      headOfContent (ascii "GET http://a.b/c HTTP/1.1" ++ crlf ++ ascii "Host: a.b" ++ crlf ++ crlf) =
        (.ok (some (head, [])), isHead) ∧ head.framing = .none ∧ head.method = ascii "GET" ∧
      head.version = .http11 ∧ (classify head.method head.rawTarget).destination = some d ∧
        serializeRequestHead head d.pathAndQuery d.host = some octets ∧
          octets.length ≤ headerSectionLimit := by
  let _ := HttpCrate.reference
  let request : Bytes :=
    ascii "GET http://a.b/c HTTP/1.1" ++ crlf ++ ascii "Host: a.b" ++ crlf ++ crlf
  have heval : (headOfContent request).1.toOption.join.any (fun parsed =>
      parsed.2.isEmpty && parsed.1.framing == .none && parsed.1.method == ascii "GET" &&
        parsed.1.version == .http11 &&
          (classify parsed.1.method parsed.1.rawTarget).destination.any fun d =>
            (serializeRequestHead parsed.1 d.pathAndQuery d.host).any fun octets =>
              decide (octets.length ≤ headerSectionLimit)) = true := by
    decide +kernel
  obtain ⟨⟨head, rest⟩, isHead, hhead, hplain⟩ := exists_of_any_join heval
  simp only [Bool.and_eq_true, beq_iff_eq, List.isEmpty_iff] at hplain
  obtain ⟨⟨⟨⟨rfl, hframing⟩, hget⟩, hversion⟩, hany⟩ := hplain
  obtain ⟨d, hd, hany⟩ := (Option.any_eq_true _ _).mp hany
  obtain ⟨octets, hoctets, hfits⟩ := (Option.any_eq_true _ _).mp hany
  exact ⟨head, d, isHead, octets, hhead, hframing, hget, hversion, hd, hoctets, of_decide_eq_true hfits⟩

omit [HttpCrate] in
theorem outbound_head_example : ∃ (_ : HttpCrate) (head : RequestHead) (d : Destination),
    ∃ nominated host outbound bytes, connectionNominations head.headers = some nominated ∧
      host.asBytes = d.host ∧ serializeRequestHead head d.pathAndQuery d.host = some bytes ∧
      ReadAs head nominated d.pathAndQuery host outbound := by
  let _ := HttpCrate.reference
  obtain ⟨head, d, isHead, -, hhead, -, hget, -, hd, -⟩ := accepted_example
  have hconnect : head.method ≠ Method.connect := hget ▸ by decide
  obtain ⟨nominated, host, outbound, bytes, hnominated, hhost, hwritten, hread, -⟩ :=
    outbound_head hhead hconnect hd
  exact ⟨_, head, d, nominated, host, outbound, bytes, hnominated, hhost, hwritten, hread⟩

end Vhrn.Proxy
