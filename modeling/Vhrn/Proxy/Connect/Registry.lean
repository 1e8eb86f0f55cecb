import Vhrn.Foundations.Net
import Vhrn.Foundations.Prefix

/-!
# The special-purpose address boundary

The IANA special-purpose address registries, as reviewed on 2025-10-09, and which addresses are
globally routable under them. An address is judged by the most specific registry entry that contains
it; IPv6 addresses outside the global unicast block need an entry of their own.
-/

namespace Vhrn.Proxy

inductive RegistryFlag
  | true
  | false
  | indeterminate
  deriving DecidableEq, Repr

/-- One block of a registry. -/
structure RegistryEntry (w : ℕ) where
  network : BitVec w
  length : ℕ
  destination : RegistryFlag
  forwardable : RegistryFlag
  globallyReachable : RegistryFlag
  deriving DecidableEq, Repr

def RegistryEntry.eligible {w : ℕ} (entry : RegistryEntry w) : Bool :=
  entry.destination = .true && entry.forwardable = .true && entry.globallyReachable = .true

/-- The three flags of an entry, in their order. -/
structure Flags where
  destination : RegistryFlag
  forwardable : RegistryFlag
  globallyReachable : RegistryFlag

def Flags.fff : Flags := ⟨.false, .false, .false⟩

def Flags.tff : Flags := ⟨.true, .false, .false⟩

def Flags.ttf : Flags := ⟨.true, .true, .false⟩

def Flags.ttt : Flags := ⟨.true, .true, .true⟩

def Flags.ttn : Flags := ⟨.true, .true, .indeterminate⟩

def Flags.nnn : Flags := ⟨.indeterminate, .indeterminate, .indeterminate⟩

def v4 (a b c d : UInt8) (length : ℕ) (flags : Flags) : RegistryEntry 32 :=
  ⟨(Ipv4Addr.ofOctets ⟨a, b, c, d⟩).bits, length, flags.destination, flags.forwardable,
    flags.globallyReachable⟩

def v6 (segments : List ℕ) (length : ℕ) (flags : Flags) : RegistryEntry 128 :=
  ⟨(Ipv6Addr.ofSegments segments).bits, length, flags.destination, flags.forwardable,
    flags.globallyReachable⟩

def ipv4SpecialPurpose : List (RegistryEntry 32) :=
  [v4 0 0 0 0 8 .fff, v4 0 0 0 0 32 .fff, v4 10 0 0 0 8 .ttf, v4 100 64 0 0 10 .ttf,
    v4 127 0 0 0 8 .fff, v4 169 254 0 0 16 .tff, v4 172 16 0 0 12 .ttf, v4 192 0 0 0 24 .fff,
    v4 192 0 0 0 29 .ttf, v4 192 0 0 8 32 .fff, v4 192 0 0 9 32 .ttt, v4 192 0 0 10 32 .ttt,
    v4 192 0 0 170 32 .fff, v4 192 0 0 171 32 .fff, v4 192 0 2 0 24 .fff, v4 192 31 196 0 24 .ttt,
    v4 192 52 193 0 24 .ttt, v4 192 88 99 0 24 .nnn, v4 192 88 99 2 32 .ttf, v4 192 168 0 0 16 .ttf,
    v4 192 175 48 0 24 .ttt, v4 198 18 0 0 15 .ttf, v4 198 51 100 0 24 .fff, v4 203 0 113 0 24 .fff,
    v4 240 0 0 0 4 .fff, v4 255 255 255 255 32 .tff]

def ipv6SpecialPurpose : List (RegistryEntry 128) :=
  [v6 [0, 0, 0, 0, 0, 0, 0, 1] 128 .fff, v6 [0, 0, 0, 0, 0, 0, 0, 0] 128 .fff,
    v6 [0, 0, 0, 0, 0, 0xffff, 0, 0] 96 .fff, v6 [0x64, 0xff9b, 0, 0, 0, 0, 0, 0] 96 .ttt,
    v6 [0x64, 0xff9b, 1, 0, 0, 0, 0, 0] 48 .ttf, v6 [0x100, 0, 0, 0, 0, 0, 0, 0] 64 .ttf,
    v6 [0x100, 0, 0, 1, 0, 0, 0, 0] 64 .tff, v6 [0x2001, 0, 0, 0, 0, 0, 0, 0] 23 .fff,
    v6 [0x2001, 0, 0, 0, 0, 0, 0, 0] 32 .ttn, v6 [0x2001, 1, 0, 0, 0, 0, 0, 1] 128 .ttt,
    v6 [0x2001, 1, 0, 0, 0, 0, 0, 2] 128 .ttt, v6 [0x2001, 1, 0, 0, 0, 0, 0, 3] 128 .ttt,
    v6 [0x2001, 2, 0, 0, 0, 0, 0, 0] 48 .ttf, v6 [0x2001, 3, 0, 0, 0, 0, 0, 0] 32 .ttt,
    v6 [0x2001, 4, 0x112, 0, 0, 0, 0, 0] 48 .ttt, v6 [0x2001, 0x10, 0, 0, 0, 0, 0, 0] 28 .nnn,
    v6 [0x2001, 0x20, 0, 0, 0, 0, 0, 0] 28 .ttt, v6 [0x2001, 0x30, 0, 0, 0, 0, 0, 0] 28 .ttt,
    v6 [0x2001, 0xdb8, 0, 0, 0, 0, 0, 0] 32 .fff, v6 [0x2002, 0, 0, 0, 0, 0, 0, 0] 16 .ttn,
    v6 [0x2620, 0x4f, 0x8000, 0, 0, 0, 0, 0] 48 .ttt, v6 [0x3fff, 0, 0, 0, 0, 0, 0, 0] 20 .fff,
    v6 [0x5f00, 0, 0, 0, 0, 0, 0, 0] 16 .ttf, v6 [0xfc00, 0, 0, 0, 0, 0, 0, 0] 7 .ttf,
    v6 [0xfe80, 0, 0, 0, 0, 0, 0, 0] 10 .tff]

def mostSpecificV4 (address : Ipv4Addr) : Option (RegistryEntry 32) :=
  Prefix.mostSpecific RegistryEntry.network RegistryEntry.length ipv4SpecialPurpose address.bits

def mostSpecificV6 (address : Ipv6Addr) : Option (RegistryEntry 128) :=
  Prefix.mostSpecific RegistryEntry.network RegistryEntry.length ipv6SpecialPurpose address.bits

/-- 2000::/3. -/
def globalUnicast (address : Ipv6Addr) : Bool :=
  Prefix.contains (Ipv6Addr.ofSegments [0x2000, 0, 0, 0, 0, 0, 0, 0]).bits 3 address.bits

def ipv4IsGlobal (address : Ipv4Addr) : Bool :=
  if address.isMulticast || address == .broadcast then false
  else (mostSpecificV4 address).all RegistryEntry.eligible

def ipv6IsGlobal (address : Ipv6Addr) : Bool :=
  if address.isMulticast || address.toIpv4Mapped.isSome then false
  else
    let special := mostSpecificV6 address
    if globalUnicast address then special.all RegistryEntry.eligible
    else special.any RegistryEntry.eligible

def ipIsGlobal : IpAddr → Bool
  | .v4 address => ipv4IsGlobal address
  | .v6 address => ipv6IsGlobal address

/-! ## What global means -/

/-- The entry that decides an address. -/
def Decides {w : ℕ} (table : List (RegistryEntry w)) (address : BitVec w)
    (entry : RegistryEntry w) : Prop :=
  Prefix.IsMostSpecific RegistryEntry.network RegistryEntry.length table address entry

/-- Globally routable under the registries: no entry decides against the address, and an IPv6 address
outside the global unicast block has an entry that decides for it. -/
def GloballyRoutable : IpAddr → Prop
  | .v4 address => address.isMulticast = false ∧ address ≠ .broadcast ∧
    ∀ entry, Decides ipv4SpecialPurpose address.bits entry → entry.eligible = true
  | .v6 address => address.isMulticast = false ∧ address.toIpv4Mapped = none ∧
    (∀ entry, Decides ipv6SpecialPurpose address.bits entry → entry.eligible = true) ∧
    (globalUnicast address = true ∨ ∃ entry, Decides ipv6SpecialPurpose address.bits entry)

theorem ipv4_unambiguous :
    Prefix.Unambiguous RegistryEntry.network RegistryEntry.length ipv4SpecialPurpose := by
  decide +kernel

theorem ipv6_unambiguous :
    Prefix.Unambiguous RegistryEntry.network RegistryEntry.length ipv6SpecialPurpose := by
  decide +kernel

/-- What the most specific entry of an unambiguous table says. -/
theorem all_mostSpecific {w : ℕ} {table : List (RegistryEntry w)} {address : BitVec w}
    (ht : Prefix.Unambiguous RegistryEntry.network RegistryEntry.length table) :
    (Prefix.mostSpecific RegistryEntry.network RegistryEntry.length table address).all
        RegistryEntry.eligible = true ↔
      ∀ entry, Decides table address entry → entry.eligible = true := by
  rw [Option.all_eq_true]
  exact forall_congr' fun entry => imp_congr_left (Prefix.mostSpecific_eq_some ht)

/-- **The registry test accepts exactly the globally routable addresses.** -/
theorem ipIsGlobal_iff (address : IpAddr) : ipIsGlobal address = true ↔ GloballyRoutable address := by
  cases address with
  | v4 address =>
    rw [ipIsGlobal, ipv4IsGlobal, GloballyRoutable, ← all_mostSpecific ipv4_unambiguous]
    cases hm : address.isMulticast with
    | true => simp
    | false =>
      by_cases hb : address = .broadcast
      · simp [hb]
      · simp [hb, mostSpecificV4]
  | v6 address =>
    rw [ipIsGlobal, ipv6IsGlobal, GloballyRoutable, ← all_mostSpecific ipv6_unambiguous]
    cases hm : address.isMulticast with
    | true => simp
    | false =>
      cases h4 : address.toIpv4Mapped with
      | some _ => simp
      | none =>
        have hnone : (∃ entry, Decides ipv6SpecialPurpose address.bits entry) ↔
            (mostSpecificV6 address).isSome = true := by
          rw [Option.isSome_iff_exists]
          exact exists_congr fun entry => (Prefix.mostSpecific_eq_some ipv6_unambiguous).symm
        rw [hnone]
        cases hg : globalUnicast address with
        | true => simp [mostSpecificV6]
        | false =>
          simp only [mostSpecificV6]
          cases Prefix.mostSpecific RegistryEntry.network RegistryEntry.length ipv6SpecialPurpose
            address.bits <;> simp

end Vhrn.Proxy
