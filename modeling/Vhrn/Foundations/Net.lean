import Vhrn.Foundations.Numerals

/-!
# Internet addresses

IPv4 and IPv6 addresses as the standard library reads and writes them. Reading is a hand-written
descent over octets: a number of bounded length, dotted quads, and up to eight groups with one `::`
and an optional dotted quad at the end. Writing an IPv6 address abbreviates its longest run of zero
segments.
-/

namespace Vhrn

/-- An IPv4 address. -/
structure Ipv4Addr where
  bits : BitVec 32
  deriving DecidableEq, Repr

/-- An IPv6 address. -/
structure Ipv6Addr where
  bits : BitVec 128
  deriving DecidableEq, Repr

inductive IpAddr
  | v4 (address : Ipv4Addr)
  | v6 (address : Ipv6Addr)
  deriving DecidableEq, Repr

/-- The four octets of an IPv4 address, first to last. -/
structure Octets where
  a : UInt8
  b : UInt8
  c : UInt8
  d : UInt8
  deriving DecidableEq, Repr

namespace Ipv4Addr

def ofOctets (o : Octets) : Ipv4Addr :=
  ⟨(o.a.toBitVec ++ o.b.toBitVec ++ o.c.toBitVec ++ o.d.toBitVec).cast (by decide)⟩

def octets (x : Ipv4Addr) : Octets :=
  ⟨⟨x.bits.extractLsb' 24 8⟩, ⟨x.bits.extractLsb' 16 8⟩, ⟨x.bits.extractLsb' 8 8⟩,
    ⟨x.bits.extractLsb' 0 8⟩⟩

def broadcast : Ipv4Addr := ⟨BitVec.allOnes 32⟩

/-- 224.0.0.0/4. -/
def isMulticast (x : Ipv4Addr) : Bool := 224 ≤ x.octets.a && x.octets.a ≤ 239

end Ipv4Addr

/-- The dotted quad. -/
def Octets.display (o : Octets) : Bytes :=
  Numerals.decimal o.a.toNat ++ 46 :: (Numerals.decimal o.b.toNat ++ 46 ::
    (Numerals.decimal o.c.toNat ++ 46 :: Numerals.decimal o.d.toNat))

def Ipv4Addr.display (x : Ipv4Addr) : Bytes := x.octets.display

namespace Ipv6Addr

/-- The address with the given 16-bit segments, first to last. -/
def ofSegments (segments : List ℕ) : Ipv6Addr :=
  ⟨BitVec.ofNat 128 (segments.foldl (fun acc s => acc * 65536 + s) 0)⟩

/-- The 16-bit segments, first to last. -/
def segments (x : Ipv6Addr) : List ℕ :=
  (List.range 8).map fun i => x.bits.toNat / 65536 ^ (7 - i) % 65536

def loopback : Ipv6Addr := ⟨1⟩

def isLoopback (x : Ipv6Addr) : Bool := x == loopback

/-- ff00::/8. -/
def isMulticast (x : Ipv6Addr) : Bool := x.bits.extractLsb' 120 8 == 0xFF

/-- The IPv4 address of `::ffff:a.b.c.d`. -/
def toIpv4Mapped (x : Ipv6Addr) : Option Ipv4Addr :=
  if x.bits.extractLsb' 32 96 == 0xFFFF then some ⟨x.bits.setWidth 32⟩ else none

end Ipv6Addr

/-! ## Reading -/

namespace AddrParser

open Numerals

/-- A number of at most `maxDigits` digits that fits below `bound`, and the rest of the text. -/
def readNumber (radix maxDigits bound : ℕ) (allowZeroPrefix : Bool) (s : Bytes) :
    Option (ℕ × Bytes) :=
  let isRadixDigit b := match digitValue? b with
    | some d => decide (d < radix)
    | none => false
  let digits := s.takeWhile isRadixDigit
  if digits.length = 0 || maxDigits < digits.length then none
  else if !allowZeroPrefix && digits.head? == some 48 && 1 < digits.length then none
  else if value radix digits < bound then some (value radix digits, s.dropWhile isRadixDigit)
  else none

/-- What follows a separator, which is absent before the first element. -/
def readSeparator (sep : UInt8) (index : ℕ) (s : Bytes) : Option Bytes :=
  if index = 0 then some s else stripPrefix [sep] s

def readIpv4Octet (index : ℕ) (s : Bytes) : Option (ℕ × Bytes) :=
  (readSeparator 46 index s).bind (readNumber 10 3 256 false)

def readIpv4Addr (s : Bytes) : Option (Octets × Bytes) := do
  let (a, s) ← readIpv4Octet 0 s
  let (b, s) ← readIpv4Octet 1 s
  let (c, s) ← readIpv4Octet 2 s
  let (d, s) ← readIpv4Octet 3 s
  return (⟨UInt8.ofNat a, UInt8.ofNat b, UInt8.ofNat c, UInt8.ofNat d⟩, s)

/-- Up to `slots` groups of an IPv6 address, of which `index` groups have been read before. A dotted
quad takes two slots and ends the groups; the flag says that one was read. -/
def readGroups : (slots index : ℕ) → Bytes → List ℕ × Bool × Bytes
  | 0, _, s => ([], false, s)
  | slots + 1, index, s =>
    match (if 1 ≤ slots then (readSeparator 58 index s).bind readIpv4Addr else none) with
    | some (o, s') =>
      ([o.a.toNat * 256 + o.b.toNat, o.c.toNat * 256 + o.d.toNat], true, s')
    | none =>
      match (readSeparator 58 index s).bind (readNumber 16 4 65536 true) with
      | some (g, s') =>
        let (gs, v4, s'') := readGroups slots (index + 1) s'
        (g :: gs, v4, s'')
      | none => ([], false, s)

def readIpv6Addr (s : Bytes) : Option (Ipv6Addr × Bytes) :=
  let (head, headV4, s) := readGroups 8 0 s
  if head.length = 8 then some (.ofSegments head, s)
  else if headV4 then none
  else do
    let s ← stripPrefix [58, 58] s
    let (tail, _, s) := readGroups (8 - (head.length + 1)) 0 s
    return (.ofSegments (head ++ List.replicate (8 - head.length - tail.length) 0 ++ tail), s)

end AddrParser

/-- A dotted quad without leading zeros. -/
def Ipv4Addr.fromStr (s : Bytes) : Option Ipv4Addr :=
  if 15 < s.length then none
  else match AddrParser.readIpv4Addr s with
    | some (o, []) => some (.ofOctets o)
    | _ => none

def Ipv6Addr.fromStr (s : Bytes) : Option Ipv6Addr :=
  match AddrParser.readIpv6Addr s with
  | some (x, []) => some x
  | _ => none

/-! ## The octets of an address -/

/-- An octet that can stand in the text of an address. -/
def isAddrByte (b : UInt8) : Bool := Ascii.isHexDigit b || b == 58 || b == 46

/-- The part of a text before a rest holds octets of an address only. -/
def ReadsAddr (s rest : Bytes) : Prop := ∃ front, s = front ++ rest ∧ front.all isAddrByte = true

namespace ReadsAddr

theorem refl (s : Bytes) : ReadsAddr s s := ⟨[], rfl, rfl⟩

theorem trans {s t u : Bytes} (h : ReadsAddr s t) (h' : ReadsAddr t u) : ReadsAddr s u := by
  obtain ⟨f, rfl, hf⟩ := h
  obtain ⟨g, rfl, hg⟩ := h'
  exact ⟨f ++ g, by simp, by rw [List.all_append, hf, hg]; rfl⟩

theorem stripPrefix {p s t : Bytes} (hp : p.all isAddrByte = true)
    (h : stripPrefix p s = some t) : ReadsAddr s t :=
  ⟨p, stripPrefix_eq_some.mp h, hp⟩

end ReadsAddr

namespace AddrParser

theorem readNumber_reads {radix maxDigits bound n : ℕ} {zero : Bool} {s t : Bytes}
    (h : readNumber radix maxDigits bound zero s = some (n, t)) : ReadsAddr s t := by
  unfold readNumber at h
  simp only [Option.ite_none_left_eq_some, Option.ite_none_right_eq_some, Option.some.injEq,
    Prod.mk.injEq] at h
  obtain ⟨-, -, -, -, rfl⟩ := h
  refine ⟨_, List.takeWhile_append_dropWhile.symm, List.all_eq_true.mpr fun b hb => ?_⟩
  have hb' := List.mem_takeWhile_imp hb
  have hhex : (Numerals.digitValue? b).isSome = true := by
    cases hd : Numerals.digitValue? b with
    | none => simp [hd] at hb'
    | some d => rfl
  rw [Numerals.digitValue?_isSome] at hhex
  rw [isAddrByte, hhex]
  rfl

theorem readSeparator_reads {sep : UInt8} (hsep : isAddrByte sep = true) {index : ℕ} {s t : Bytes}
    (h : readSeparator sep index s = some t) : ReadsAddr s t := by
  unfold readSeparator at h
  split at h
  · obtain rfl := Option.some.inj h
    exact .refl s
  · exact .stripPrefix (by simp [hsep]) h

theorem readIpv4Octet_reads {index n : ℕ} {s t : Bytes}
    (h : readIpv4Octet index s = some (n, t)) : ReadsAddr s t := by
  obtain ⟨u, hu, hn⟩ := Option.bind_eq_some_iff.mp h
  exact (readSeparator_reads (by decide) hu).trans (readNumber_reads hn)

theorem readIpv4Addr_reads {o : Octets} {s t : Bytes} (h : readIpv4Addr s = some (o, t)) :
    ReadsAddr s t := by
  unfold readIpv4Addr at h
  simp only [bind, Option.bind_eq_some_iff, Prod.exists, pure, Option.some.injEq,
    Prod.mk.injEq] at h
  obtain ⟨_, s₁, h₁, _, s₂, h₂, _, s₃, h₃, _, s₄, h₄, -, rfl⟩ := h
  exact (readIpv4Octet_reads h₁).trans <| (readIpv4Octet_reads h₂).trans <|
    (readIpv4Octet_reads h₃).trans (readIpv4Octet_reads h₄)

theorem readGroups_reads (slots index : ℕ) (s : Bytes) :
    ReadsAddr s (readGroups slots index s).2.2 := by
  induction slots generalizing index s with
  | zero => exact .refl s
  | succ slots ih =>
    unfold readGroups
    split
    · rename_i o s' h
      rw [Option.ite_none_right_eq_some] at h
      obtain ⟨u, hu, hv⟩ := Option.bind_eq_some_iff.mp h.2
      exact (readSeparator_reads (by decide) hu).trans (readIpv4Addr_reads hv)
    · split
      · rename_i g s' h
        obtain ⟨u, hu, hv⟩ := Option.bind_eq_some_iff.mp h
        exact (readSeparator_reads (by decide) hu).trans ((readNumber_reads hv).trans (ih _ _))
      · exact .refl s

theorem readIpv6Addr_reads {x : Ipv6Addr} {s t : Bytes} (h : readIpv6Addr s = some (x, t)) :
    ReadsAddr s t := by
  have hhead := readGroups_reads 8 0 s
  unfold readIpv6Addr at h
  simp only at h
  split at h
  · obtain ⟨-, rfl⟩ := Prod.mk.inj (Option.some.inj h)
    exact hhead
  · split at h
    · cases h
    · simp only [bind, Option.bind_eq_some_iff, pure, Option.some.injEq, Prod.mk.injEq] at h
      obtain ⟨u, hu, -, rfl⟩ := h
      exact hhead.trans ((ReadsAddr.stripPrefix (by decide) hu).trans (readGroups_reads _ _ _))

end AddrParser

/-- The text of an IPv6 address holds hexadecimal digits, colons and dots only. -/
theorem Ipv6Addr.fromStr_byte {s : Bytes} {x : Ipv6Addr} (h : Ipv6Addr.fromStr s = some x)
    {b : UInt8} (hb : b ∈ s) : isAddrByte b = true := by
  unfold Ipv6Addr.fromStr at h
  split at h
  · rename_i y hy
    obtain ⟨front, hs, hall⟩ := AddrParser.readIpv6Addr_reads hy
    rw [List.append_nil] at hs
    exact List.all_eq_true.mp hall b (hs ▸ hb)
  · cases h

/-! ## Writing -/

namespace Ipv6Addr

/-- A run of zero segments. -/
structure Span where
  start : ℕ
  len : ℕ

/-- The longest run of zero segments so far and the one being read. -/
def scanZeroes (longest current : Span) : (index : ℕ) → List ℕ → Span
  | _, [] => longest
  | index, segment :: rest =>
    if segment = 0 then
      let current : Span := ⟨if current.len = 0 then index else current.start, current.len + 1⟩
      scanZeroes (if longest.len < current.len then current else longest) current (index + 1) rest
    else scanZeroes longest ⟨0, 0⟩ (index + 1) rest

/-- Segments separated by colons. -/
def fmtSubslice (chunk : List ℕ) : Bytes := [58].intercalate (chunk.map (Numerals.numeral 16))

def display (x : Ipv6Addr) : Bytes :=
  match x.toIpv4Mapped with
  | some ipv4 => ascii "::ffff:" ++ ipv4.display
  | none =>
    let zeroes := scanZeroes ⟨0, 0⟩ ⟨0, 0⟩ 0 x.segments
    if 1 < zeroes.len then
      fmtSubslice (x.segments.take zeroes.start) ++ 58 :: 58 ::
        fmtSubslice (x.segments.drop (zeroes.start + zeroes.len))
    else fmtSubslice x.segments

end Ipv6Addr

def IpAddr.display : IpAddr → Bytes
  | .v4 address => address.display
  | .v6 address => address.display

example : Ipv6Addr.fromStr (ascii "::ffff:10.0.0.1") = some ⟨0xFFFF0A000001⟩ := by decide +kernel

example : (Ipv6Addr.fromStr (ascii "2001:DB8:0:0:1::1")).map Ipv6Addr.display =
    some (ascii "2001:db8::1:0:0:1") := by decide +kernel

end Vhrn
