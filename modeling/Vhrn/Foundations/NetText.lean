import Vhrn.Foundations.Net

/-!
# Addresses are read back

The text that is written for an address reads as that address. For an IPv6 address this rests on the
scan for a run of zero segments: whatever run it returns is a run of zeros, so that the groups on its
two sides, read again, are filled up with the zeros that were left out.
-/

namespace Vhrn

namespace AddrParser

open Numerals

/-! ## Numbers -/

/-- A digit of the radix. -/
def isRadixDigit (radix : ℕ) (b : UInt8) : Bool := (digitValue? b).any (· < radix)

/-- A text that a number in the given radix ends before. -/
def Stops (radix : ℕ) (rest : Bytes) : Prop := ∀ b ∈ rest.head?, isRadixDigit radix b = false

theorem Stops.nil {radix : ℕ} : Stops radix [] := by
  intro b hb
  cases hb

theorem Stops.cons {radix : ℕ} {b : UInt8} (hb : digitValue? b = none) (rest : Bytes) :
    Stops radix (b :: rest) := by
  intro c hc
  obtain rfl : b = c := by simpa using hc
  rw [isRadixDigit, hb]
  rfl

/-- Digits, and then a text that stops them, are read as their value. -/
theorem readNumber_digits {radix maxDigits bound : ℕ} {zero : Bool} {digits rest : Bytes}
    (hd : ∀ b ∈ digits, isRadixDigit radix b = true) (hrest : Stops radix rest)
    (hne : digits ≠ []) (hlen : digits.length ≤ maxDigits)
    (hzero : 1 < digits.length → digits.head? ≠ some 48) (hv : value radix digits < bound) :
    readNumber radix maxDigits bound zero (digits ++ rest) = some (value radix digits, rest) := by
  unfold readNumber
  extract_lets p taken
  have hp : p = isRadixDigit radix := by
    funext b
    simp only [p, isRadixDigit]
    cases digitValue? b <;> rfl
  have htake : taken = digits := by
    simp only [taken, hp]
    rw [List.takeWhile_append_of_pos hd]
    cases rest with
    | nil => simp
    | cons b rest => simp [hrest b rfl]
  have hdrop : (digits ++ rest).dropWhile p = rest := by
    rw [hp, List.dropWhile_append_of_pos hd]
    cases rest with
    | nil => rfl
    | cons b rest => simp [hrest b rfl]
  have hpos : digits.length ≠ 0 := mt List.length_eq_zero_iff.mp hne
  have hlead : (!zero && digits.head? == some 48 && decide (1 < digits.length)) = false := by
    rw [Bool.eq_false_iff]
    intro h
    simp only [Bool.and_eq_true, decide_eq_true_eq, beq_iff_eq] at h
    exact hzero h.2 h.1.2
  rw [htake, hdrop, hlead, if_pos hv, if_neg]
  · rfl
  · simp only [Bool.or_eq_true, decide_eq_true_eq, not_or, not_lt]
    exact ⟨hpos, hlen⟩

/-- **A numeral is read back**, up to what stops it. -/
theorem readNumber_numeral {radix maxDigits bound n : ℕ} {zero : Bool} {rest : Bytes}
    (h2 : 2 ≤ radix) (h16 : radix ≤ 16) (hlen : (numeral radix n).length ≤ maxDigits)
    (hn : n < bound) (hrest : Stops radix rest) :
    readNumber radix maxDigits bound zero (numeral radix n ++ rest) = some (n, rest) := by
  have hdigit : ∀ d < 16, digitValue? (digitByte d) = some d := by decide
  have hall : ∀ b ∈ numeral radix n, isRadixDigit radix b = true := by
    intro b hb
    obtain ⟨d, hd, rfl⟩ := mem_numeral h2 h16 hb
    simp [isRadixDigit, hdigit d (by omega), hd]
  have hvalue : value radix (numeral radix n) = n := value_numeral h2 h16 n
  have h := @readNumber_digits _ _ _ zero _ _ hall hrest (numeral_ne_nil n) hlen
    (head?_numeral h2 h16) (hvalue.symm ▸ hn)
  rwa [hvalue] at h

/-- No number stands before a text that stops it. -/
theorem readNumber_eq_none {radix maxDigits bound : ℕ} {zero : Bool} {s : Bytes}
    (h : Stops radix s) : readNumber radix maxDigits bound zero s = none := by
  unfold readNumber
  extract_lets p taken
  have htake : taken = [] := by
    have hp : p = isRadixDigit radix := by
      funext b
      simp only [p, isRadixDigit]
      cases digitValue? b <;> rfl
    cases s with
    | nil => rfl
    | cons b s =>
      simp only [taken, hp, List.takeWhile_cons, h b rfl, Bool.false_eq_true, ↓reduceIte]
  rw [htake]
  rfl

/-! ## Dotted quads -/

theorem readSeparator_zero (sep : UInt8) (s : Bytes) : readSeparator sep 0 s = some s := rfl

theorem readSeparator_cons (sep : UInt8) (index : ℕ) (s : Bytes) :
    readSeparator sep (index + 1) (sep :: s) = some s :=
  stripPrefix_append [sep] s

theorem readNumber_octet (x : UInt8) {rest : Bytes} (h : Stops 10 rest) :
    readNumber 10 3 256 false (decimal x.toNat ++ rest) = some (x.toNat, rest) := by
  have hlt := x.toNat_lt
  exact readNumber_numeral (by decide) (by decide)
    (length_numeral_le (by decide) (by decide) (by omega)) hlt h

/-- **A dotted quad is read back**, up to what stops it. -/
theorem readIpv4Addr_display (o : Octets) {rest : Bytes} (h : Stops 10 rest) :
    readIpv4Addr (o.display ++ rest) = some (o, rest) := by
  have hdot (s : Bytes) : Stops 10 (46 :: s) := .cons (by decide) s
  unfold readIpv4Addr readIpv4Octet Octets.display
  simp only [List.append_assoc, List.cons_append, bind, readSeparator_zero, Option.bind_some,
    readNumber_octet _ (hdot _), readSeparator_cons 46, readNumber_octet _ h, pure,
    UInt8.ofNat_toNat]

theorem readIpv4Addr_stops {s : Bytes} (h : Stops 10 s) : readIpv4Addr s = none := by
  unfold readIpv4Addr readIpv4Octet
  rw [readSeparator_zero, Option.bind_some, readNumber_eq_none h]
  rfl

/-- A text without a dot is no dotted quad. -/
theorem readIpv4Addr_eq_none {s : Bytes} (h : (46 : UInt8) ∉ s) : readIpv4Addr s = none := by
  unfold readIpv4Addr
  cases ha : readIpv4Octet 0 s with
  | none => rfl
  | some parsed =>
    obtain ⟨a, rest⟩ := parsed
    obtain ⟨front, rfl, -⟩ := readIpv4Octet_reads ha
    have hrest : readIpv4Octet 1 rest = none := by
      have hsep : readSeparator 46 1 rest = none := by
        rw [readSeparator, if_neg (by decide), Option.eq_none_iff_forall_ne_some]
        intro t ht
        exact h (by simp [stripPrefix_eq_some.mp ht])
      rw [readIpv4Octet, hsep]
      rfl
    simp only [bind, Option.bind_some, hrest, Option.bind_none]

/-! ## Groups -/

/-- A text that no group of an IPv6 address starts. -/
inductive EndsGroups : Bytes → Prop
  | nil : EndsGroups []
  | elided (rest : Bytes) : EndsGroups (58 :: 58 :: rest)

theorem EndsGroups.stops {rest : Bytes} (h : EndsGroups rest) : Stops 16 rest := by
  cases h with
  | nil => exact .nil
  | elided rest => exact .cons (by decide) _

theorem EndsGroups.readGroup {rest : Bytes} (h : EndsGroups rest) (index : ℕ) :
    (readSeparator 58 index rest).bind (readNumber 16 4 65536 true) = none := by
  cases index with
  | zero => exact readNumber_eq_none h.stops
  | succ index =>
    cases h with
    | nil => rfl
    | elided rest =>
      rw [readSeparator_cons, Option.bind_some]
      exact readNumber_eq_none (.cons (by decide) rest)

theorem readGroup_numeral {g : ℕ} (hg : g < 65536) {rest : Bytes} (h : Stops 16 rest) :
    readNumber 16 4 65536 true (numeral 16 g ++ rest) = some (g, rest) :=
  readNumber_numeral (by decide) (by decide)
    (length_numeral_le (by decide) (by decide) (by omega)) hg h

/-- What a separator leaves of a text without a dot is no dotted quad. -/
theorem readQuad_eq_none {s : Bytes} (h : (46 : UInt8) ∉ s) (index : ℕ) :
    (readSeparator 58 index s).bind readIpv4Addr = none := by
  rw [Option.bind_eq_none_iff]
  intro t ht
  obtain ⟨front, rfl, -⟩ := readSeparator_reads (by decide) ht
  exact readIpv4Addr_eq_none fun hm => h (List.mem_append_right _ hm)

theorem readGroups_ends {rest : Bytes} (hdot : (46 : UInt8) ∉ rest) (h : EndsGroups rest)
    (slots index : ℕ) : readGroups slots index rest = ([], false, rest) := by
  cases slots with
  | zero => rfl
  | succ slots =>
    unfold readGroups
    simp only [readQuad_eq_none hdot, h.readGroup, ite_self]

/-- Groups with a colon before each. -/
def colonGroups (gs : List ℕ) : Bytes := (gs.map fun g => 58 :: numeral 16 g).flatten

theorem colonGroups_cons (g : ℕ) (gs : List ℕ) :
    colonGroups (g :: gs) = 58 :: (numeral 16 g ++ colonGroups gs) := rfl

theorem stops_colonGroups (gs : List ℕ) {rest : Bytes} (h : Stops 16 rest) :
    Stops 16 (colonGroups gs ++ rest) := by
  cases gs with
  | nil => exact h
  | cons g gs => exact .cons (by decide) _

theorem not_dot_numeral (g : ℕ) : (46 : UInt8) ∉ numeral 16 g :=
  fun h => absurd (isHexDigit_of_mem_numeral h) (by decide)

theorem not_dot_colonGroups (gs : List ℕ) : (46 : UInt8) ∉ colonGroups gs := by
  induction gs with
  | nil => exact List.not_mem_nil
  | cons g gs ih =>
    rw [colonGroups_cons, List.mem_cons, List.mem_append]
    rintro (h | h | h)
    · cases h
    · exact not_dot_numeral g h
    · exact ih h

/-- Groups after a first one are read back. -/
theorem readGroups_colonGroups {gs : List ℕ} (hgs : ∀ g ∈ gs, g < 65536) {rest : Bytes}
    (hdot : (46 : UInt8) ∉ rest) (hrest : EndsGroups rest) {slots : ℕ} (hslots : gs.length ≤ slots)
    (index : ℕ) : readGroups slots (index + 1) (colonGroups gs ++ rest) = (gs, false, rest) := by
  induction gs generalizing slots index with
  | nil => exact readGroups_ends hdot hrest slots (index + 1)
  | cons g gs ih =>
    obtain ⟨slots, rfl⟩ := Nat.exists_eq_add_of_lt (Nat.lt_of_succ_le hslots)
    have hno : (46 : UInt8) ∉ colonGroups (g :: gs) ++ rest := by
      rw [List.mem_append, not_or]
      exact ⟨not_dot_colonGroups _, hdot⟩
    have hg := readGroup_numeral (hgs g (by simp)) (stops_colonGroups gs hrest.stops)
    unfold readGroups
    simp only [readQuad_eq_none hno, ite_self]
    simp only [colonGroups_cons, List.cons_append, List.append_assoc, readSeparator_cons,
      Option.bind_some, hg]
    rw [ih (fun x hx => hgs x (by simp [hx])) (by omega) (index + 1)]

end AddrParser

/-! ## Groups as they are written -/

namespace Ipv6Addr

open AddrParser Numerals

theorem fmtSubslice_cons (g : ℕ) (gs : List ℕ) :
    fmtSubslice (g :: gs) = numeral 16 g ++ colonGroups gs := by
  induction gs generalizing g with
  | nil => simp [fmtSubslice, colonGroups]
  | cons next gs ih =>
    have h := ih next
    unfold fmtSubslice at *
    rw [List.map_cons, List.map_cons, List.intercalate_cons_cons, ← List.map_cons, h,
      colonGroups_cons]
    simp

theorem not_dot_fmtSubslice (gs : List ℕ) : (46 : UInt8) ∉ fmtSubslice gs := by
  cases gs with
  | nil => exact List.not_mem_nil
  | cons g gs =>
    rw [fmtSubslice_cons, List.mem_append, not_or]
    exact ⟨not_dot_numeral g, not_dot_colonGroups gs⟩

/-- **Groups are read back**, up to where they end. -/
theorem readGroups_fmtSubslice {gs : List ℕ} (hgs : ∀ g ∈ gs, g < 65536) {rest : Bytes}
    (hdot : (46 : UInt8) ∉ rest) (hrest : EndsGroups rest) {slots : ℕ}
    (hslots : gs.length ≤ slots) :
    readGroups slots 0 (fmtSubslice gs ++ rest) = (gs, false, rest) := by
  cases gs with
  | nil => exact readGroups_ends hdot hrest slots 0
  | cons g gs =>
    obtain ⟨slots, rfl⟩ := Nat.exists_eq_add_of_lt (Nat.lt_of_succ_le hslots)
    have hno : (46 : UInt8) ∉ fmtSubslice (g :: gs) ++ rest := by
      rw [List.mem_append, not_or]
      exact ⟨not_dot_fmtSubslice _, hdot⟩
    have hg := readGroup_numeral (hgs g (by simp)) (stops_colonGroups gs hrest.stops)
    unfold readGroups
    simp only [readQuad_eq_none hno, ite_self]
    simp only [fmtSubslice_cons, List.append_assoc, readSeparator_zero, Option.bind_some, hg]
    rw [readGroups_colonGroups (fun x hx => hgs x (by simp [hx])) hdot hrest (by omega) 0]

/-! ## The run that is left out -/

/-- The span holds zeros only. -/
def Zeros (segments : List ℕ) (span : Span) : Prop :=
  ∃ before after, segments = before ++ List.replicate span.len 0 ++ after ∧
    before.length = span.start

/-- The span holds zeros only, and they end the segments. -/
def EndsInZeros (segments : List ℕ) (span : Span) : Prop :=
  ∃ before, segments = before ++ List.replicate span.len 0 ∧
    (span.len ≠ 0 → before.length = span.start)

theorem Zeros.append {segments : List ℕ} {span : Span} (h : Zeros segments span) (more : List ℕ) :
    Zeros (segments ++ more) span := by
  obtain ⟨before, after, rfl, hlen⟩ := h
  exact ⟨before, after ++ more, by simp, hlen⟩

theorem EndsInZeros.zeros {segments : List ℕ} {span : Span} (h : EndsInZeros segments span)
    (hne : span.len ≠ 0) : Zeros segments span := by
  obtain ⟨before, rfl, hlen⟩ := h
  exact ⟨before, [], by simp, hlen hne⟩

/-- One more zero. -/
theorem EndsInZeros.step {segments : List ℕ} {span : Span} (h : EndsInZeros segments span) :
    EndsInZeros (segments ++ [0])
      ⟨if span.len = 0 then segments.length else span.start, span.len + 1⟩ := by
  obtain ⟨before, rfl, hlen⟩ := h
  refine ⟨before, by simp [List.replicate_succ'], fun _ => ?_⟩
  split
  · rename_i hz
    simp [hz]
  · rename_i hz
    exact hlen hz

/-- **The scan returns a run of zeros.** -/
theorem scanZeroes_zeros {scanned rest : List ℕ} {longest current : Span}
    (hl : Zeros scanned longest) (hc : EndsInZeros scanned current) :
    Zeros (scanned ++ rest) (scanZeroes longest current scanned.length rest) := by
  induction rest generalizing scanned longest current with
  | nil => exact hl.append []
  | cons segment rest ih =>
    have hlen : scanned.length + 1 = (scanned ++ [segment]).length := by simp
    have hassoc : scanned ++ segment :: rest = (scanned ++ [segment]) ++ rest := by simp
    unfold scanZeroes
    rw [hassoc, hlen]
    split
    · rename_i hz
      subst hz
      have hstep := hc.step
      refine ih ?_ hstep
      by_cases hlonger : longest.len < current.len + 1
      · rw [if_pos hlonger]
        exact hstep.zeros (Nat.succ_ne_zero _)
      · rw [if_neg hlonger]
        exact hl.append [0]
    · exact ih (hl.append _) ⟨scanned ++ [segment], by simp, fun h => absurd rfl h⟩

theorem scanZeroes_segments (x : Ipv6Addr) :
    Zeros x.segments (scanZeroes ⟨0, 0⟩ ⟨0, 0⟩ 0 x.segments) :=
  @scanZeroes_zeros [] _ _ _ ⟨[], [], rfl, rfl⟩ ⟨[], rfl, fun h => absurd rfl h⟩

/-! ## Octets and segments -/

theorem length_segments (x : Ipv6Addr) : x.segments.length = 8 := by
  rw [segments, List.length_map, List.length_range]

theorem segment_lt {x : Ipv6Addr} {g : ℕ} (hg : g ∈ x.segments) : g < 65536 := by
  obtain ⟨i, -, rfl⟩ := List.mem_map.mp hg
  exact Nat.mod_lt _ (by decide)

/-- The segments make up the address. -/
theorem ofSegments_segments (x : Ipv6Addr) : ofSegments x.segments = x := by
  obtain ⟨bits⟩ := x
  have hlt := bits.isLt
  refine congrArg Ipv6Addr.mk (BitVec.eq_of_toNat_eq ?_)
  have hsegments : segments ⟨bits⟩ = [bits.toNat / 65536 ^ 7 % 65536, bits.toNat / 65536 ^ 6 % 65536,
      bits.toNat / 65536 ^ 5 % 65536, bits.toNat / 65536 ^ 4 % 65536,
      bits.toNat / 65536 ^ 3 % 65536, bits.toNat / 65536 ^ 2 % 65536,
      bits.toNat / 65536 ^ 1 % 65536, bits.toNat / 65536 ^ 0 % 65536] := rfl
  rw [hsegments, BitVec.toNat_ofNat]
  simp only [List.foldl_cons, List.foldl_nil]
  omega

/-- The last two segments of an address that embeds an IPv4 address are its octets. -/
theorem eq_of_toIpv4Mapped {x : Ipv6Addr} {v : Ipv4Addr} (h : x.toIpv4Mapped = some v) :
    x = ofSegments [0, 0, 0, 0, 0, 65535, v.octets.a.toNat * 256 + v.octets.b.toNat,
      v.octets.c.toNat * 256 + v.octets.d.toNat] := by
  obtain ⟨bits⟩ := x
  obtain ⟨hmapped, hv⟩ := Option.ite_none_right_eq_some.mp h
  have hbits : v.bits = bits.setWidth 32 := by rw [← Option.some.inj hv]
  have hlow : v.bits.toNat = bits.toNat % 2 ^ 32 := by rw [hbits, BitVec.toNat_setWidth]
  have hhigh : bits.toNat / 2 ^ 32 % 2 ^ 96 = 65535 := by
    have := congrArg BitVec.toNat (beq_iff_eq.mp hmapped)
    rwa [BitVec.extractLsb'_toNat, Nat.shiftRight_eq_div_pow] at this
  have hoctet (start : ℕ) : (⟨v.bits.extractLsb' start 8⟩ : UInt8).toNat =
      v.bits.toNat / 2 ^ start % 256 := by
    rw [UInt8.toNat_ofBitVec, BitVec.extractLsb'_toNat, Nat.shiftRight_eq_div_pow]
  have hlt := bits.isLt
  refine congrArg Ipv6Addr.mk (BitVec.eq_of_toNat_eq ?_)
  simp only [Ipv4Addr.octets, hoctet, BitVec.toNat_ofNat, List.foldl_cons, List.foldl_nil]
  omega

end Ipv6Addr

namespace Ipv4Addr

theorem toNat_ofOctets (o : Octets) : (ofOctets o).bits.toNat =
    ((o.a.toNat * 256 + o.b.toNat) * 256 + o.c.toNat) * 256 + o.d.toNat := by
  have hb := o.b.toNat_lt
  have hc := o.c.toNat_lt
  have hd := o.d.toNat_lt
  have hjoin {n : ℕ} (x : BitVec n) (y : UInt8) :
      (x ++ y.toBitVec).toNat = x.toNat * 256 + y.toNat := by
    rw [BitVec.toNat_append, ← Nat.shiftLeft_add_eq_or_of_lt y.toBitVec.isLt, Nat.shiftLeft_eq,
      UInt8.toNat_toBitVec]
  rw [ofOctets, BitVec.toNat_cast, hjoin, hjoin, hjoin, UInt8.toNat_toBitVec]

theorem octets_ofOctets (o : Octets) : (ofOctets o).octets = o := by
  have hn := toNat_ofOctets o
  have ha := o.a.toNat_lt
  have hb := o.b.toNat_lt
  have hc := o.c.toNat_lt
  have hd := o.d.toNat_lt
  obtain ⟨a, b, c, d⟩ := o
  have hoctet (start : ℕ) (x : UInt8)
      (h : (ofOctets ⟨a, b, c, d⟩).bits.toNat / 2 ^ start % 256 = x.toNat) :
      (⟨(ofOctets ⟨a, b, c, d⟩).bits.extractLsb' start 8⟩ : UInt8) = x := by
    rw [← UInt8.toNat_inj, UInt8.toNat_ofBitVec, BitVec.extractLsb'_toNat,
      Nat.shiftRight_eq_div_pow]
    exact h
  simp only at hn ha hb hc hd
  unfold octets
  rw [hoctet 24 a (by omega), hoctet 16 b (by omega), hoctet 8 c (by omega), hoctet 0 d (by omega)]
end Ipv4Addr

/-! ## The texts of addresses -/

namespace Ipv6Addr

open AddrParser

/-- Eight groups without an elision. -/
theorem fromStr_groups {gs : List ℕ} (hgs : ∀ g ∈ gs, g < 65536) (hlen : gs.length = 8) :
    fromStr (fmtSubslice gs) = some (ofSegments gs) := by
  have h := readGroups_fmtSubslice hgs List.not_mem_nil .nil hlen.le
  rw [List.append_nil] at h
  simp only [fromStr, readIpv6Addr, h, hlen, ↓reduceIte]

/-- Groups on both sides of an elision, which stands for the zeros that are missing. -/
theorem fromStr_elided {before after : List ℕ} (hb : ∀ g ∈ before, g < 65536)
    (ha : ∀ g ∈ after, g < 65536) (hlen : before.length + after.length < 8) :
    fromStr (fmtSubslice before ++ 58 :: 58 :: fmtSubslice after) =
      some (ofSegments (before ++ List.replicate (8 - before.length - after.length) 0 ++ after)) := by
  have hdot : (46 : UInt8) ∉ 58 :: 58 :: fmtSubslice after := by
    simp [not_dot_fmtSubslice after]
  have hhead := readGroups_fmtSubslice hb hdot (.elided _) (show before.length ≤ 8 by omega)
  have htail := readGroups_fmtSubslice ha List.not_mem_nil .nil
    (show after.length ≤ 8 - (before.length + 1) by omega)
  rw [List.append_nil] at htail
  have hstrip : stripPrefix [58, 58] (58 :: 58 :: fmtSubslice after) = some (fmtSubslice after) :=
    stripPrefix_append [58, 58] _
  simp only [fromStr, readIpv6Addr, hhead, show before.length ≠ 8 by omega, ↓reduceIte,
    Bool.false_eq_true, hstrip, bind, Option.bind_some, htail, pure]

/-- The text of an address that embeds an IPv4 address. -/
theorem fromStr_mapped (o : Octets) : fromStr (ascii "::ffff:" ++ o.display) =
    some (ofSegments [0, 0, 0, 0, 0, 65535, o.a.toNat * 256 + o.b.toNat,
      o.c.toNat * 256 + o.d.toNat]) := by
  have htext : ascii "::ffff:" ++ o.display = 58 :: 58 :: (Numerals.numeral 16 65535 ++
      58 :: o.display) := by
    have hffff : Numerals.numeral 16 65535 = ascii "ffff" := by decide +kernel
    rw [hffff]
    rfl
  have hcolon (s : Bytes) (radix : ℕ) : Stops radix (58 :: s) := .cons (by decide) s
  have hhead (s : Bytes) : readGroups 8 0 (58 :: s) = ([], false, 58 :: s) := by
    unfold readGroups
    simp only [readSeparator_zero, Option.bind_some, readIpv4Addr_stops (hcolon s 10),
      readNumber_eq_none (hcolon s 16), ite_self]
  have hquad : readGroups 6 1 (58 :: o.display) =
      ([o.a.toNat * 256 + o.b.toNat, o.c.toNat * 256 + o.d.toNat], true, []) := by
    have h := readIpv4Addr_display o Stops.nil
    rw [List.append_nil] at h
    unfold readGroups
    simp only [readSeparator_cons 58 0, Option.bind_some, h, show 1 ≤ 5 by omega, ↓reduceIte]
  have hffff : readIpv4Addr (Numerals.numeral 16 65535 ++ 58 :: o.display) = none := by
    refine readIpv4Addr_stops ?_
    have hnumeral : Numerals.numeral 16 65535 = 102 :: ascii "fff" := by decide +kernel
    rw [hnumeral]
    intro b hb
    obtain rfl : 102 = b := by simpa using hb
    decide
  have htail : readGroups 7 0 (Numerals.numeral 16 65535 ++ 58 :: o.display) =
      ([65535, o.a.toNat * 256 + o.b.toNat, o.c.toNat * 256 + o.d.toNat], true, []) := by
    unfold readGroups
    simp only [readSeparator_zero, Option.bind_some, hffff, ite_self,
      readGroup_numeral (show 65535 < 65536 by omega) (hcolon o.display 16), hquad]
  have hstrip (s : Bytes) : stripPrefix [58, 58] (58 :: 58 :: s) = some s :=
    stripPrefix_append [58, 58] s
  rw [htext]
  simp only [fromStr, readIpv6Addr, hhead, List.length_nil, hstrip, bind, Option.bind_some, htail,
    pure, Bool.false_eq_true, ↓reduceIte]
  rfl

/-- **The text of an IPv6 address reads as the address.** -/
theorem fromStr_display (x : Ipv6Addr) : fromStr x.display = some x := by
  unfold display
  cases hmapped : x.toIpv4Mapped with
  | some v =>
    have hx := eq_of_toIpv4Mapped hmapped
    simp only [Ipv4Addr.display]
    rw [fromStr_mapped, ← hx]
  | none =>
    simp only
    obtain ⟨before, after, hsegments, hbefore⟩ := scanZeroes_segments x
    generalize scanZeroes ⟨0, 0⟩ ⟨0, 0⟩ 0 x.segments = run at *
    have hlt {g : ℕ} (hg : g ∈ x.segments) : g < 65536 := segment_lt hg
    have hlen := length_segments x
    split
    · rename_i hrun
      have htake : x.segments.take run.start = before := by
        rw [hsegments, ← hbefore, List.append_assoc, List.take_left]
      have hdrop : x.segments.drop (run.start + run.len) = after := by
        rw [hsegments]
        exact List.drop_left' (by simp [hbefore])
      rw [hsegments] at hlt hlen
      simp only [List.length_append, List.length_replicate] at hlen
      rw [htake, hdrop, fromStr_elided (fun g hg => hlt (by simp [hg]))
        (fun g hg => hlt (by simp [hg])) (by omega)]
      have hzeros : 8 - before.length - after.length = run.len := by omega
      rw [hzeros, ← hsegments, ofSegments_segments]
    · rw [fromStr_groups (fun g hg => hlt hg) hlen, ofSegments_segments]

/-- The text of an IPv6 address holds hexadecimal digits, colons and dots only. -/
theorem display_byte {x : Ipv6Addr} {b : UInt8} (hb : b ∈ x.display) : isAddrByte b = true :=
  fromStr_byte (fromStr_display x) hb

end Ipv6Addr

end Vhrn
