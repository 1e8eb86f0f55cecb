import Vhrn.Proxy.Connect.Registry

/-!
# Which addresses are reachable

What the registries decide about whole ranges of addresses. The classification is the rule of the most
specific block, whatever the order of the tables (`address_rule`), so no address of this host, of a
private network or of a link is accepted. An address that a translator maps to an IPv4 destination is
another matter: the well-known prefix of NAT64 is globally reachable, whatever stands behind it
(`translated_iff`).
-/

namespace Vhrn.Proxy

/-! ## The rule -/

section

variable {w : ℕ} (table : List (RegistryEntry w)) (address : BitVec w)

/-- The longest block with the address says true three times. -/
def Vouched : Prop := ∃ entry, Decides table address entry ∧ entry.destination = .true ∧
  entry.forwardable = .true ∧ entry.globallyReachable = .true

/-- No block holds the address. -/
def Unlisted : Prop :=
  ∀ entry ∈ table, Prefix.contains entry.network entry.length address = false

end

section

variable {w : ℕ} {table : List (RegistryEntry w)} {address : BitVec w}

theorem RegistryEntry.eligible_iff (entry : RegistryEntry w) : entry.eligible = true ↔
    entry.destination = .true ∧ entry.forwardable = .true ∧ entry.globallyReachable = .true := by
  simp [eligible, and_assoc]

theorem unlisted_iff : Unlisted table address ↔ ∀ entry, ¬ Decides table address entry := by
  rw [← not_exists, show (∃ entry, Decides table address entry) ↔ _ from
    Prefix.exists_isMostSpecific]
  simp [Unlisted]

/-- Nothing decides against an address: the deciding block vouches for it, or there is none. -/
theorem forall_decides_iff
    (ht : Prefix.Unambiguous RegistryEntry.network RegistryEntry.length table) :
    (∀ entry, Decides table address entry → entry.eligible = true) ↔
      Vouched table address ∨ Unlisted table address := by
  rw [unlisted_iff]
  constructor
  · intro h
    by_cases hany : ∃ entry, Decides table address entry
    · obtain ⟨entry, hentry⟩ := hany
      exact .inl ⟨entry, hentry, entry.eligible_iff.mp (h entry hentry)⟩
    · exact .inr (not_exists.mp hany)
  · rintro (⟨entry, hentry, hflags⟩ | hnone) entry' hentry'
    · have hsame := (Prefix.mostSpecific_eq_some ht).mpr hentry'
      rw [(Prefix.mostSpecific_eq_some ht).mpr hentry] at hsame
      rw [← Option.some.inj hsame]
      exact entry.eligible_iff.mpr hflags
    · exact absurd hentry' (hnone entry')

theorem Vouched.decides (h : Vouched table address) : ∃ entry, Decides table address entry := by
  obtain ⟨entry, hentry, -⟩ := h
  exact ⟨entry, hentry⟩

end

theorem ipv4IsGlobal_iff (address : Ipv4Addr) : ipv4IsGlobal address = true ↔
    (address.isMulticast = false ∧ address ≠ .broadcast) ∧
      (Vouched ipv4SpecialPurpose address.bits ∨ Unlisted ipv4SpecialPurpose address.bits) := by
  rw [← forall_decides_iff ipv4_unambiguous, and_assoc]
  exact ipIsGlobal_iff (.v4 address)

theorem ipv6IsGlobal_iff (address : Ipv6Addr) : ipv6IsGlobal address = true ↔
    (address.isMulticast = false ∧ address.toIpv4Mapped = none) ∧
      (Vouched ipv6SpecialPurpose address.bits ∨
        Unlisted ipv6SpecialPurpose address.bits ∧ globalUnicast address = true) := by
  refine (ipIsGlobal_iff (.v6 address)).trans ?_
  rw [GloballyRoutable, forall_decides_iff ipv6_unambiguous, and_assoc]
  refine and_congr_right' (and_congr_right' ?_)
  constructor
  · rintro ⟨hvouched | hunlisted, hunicast | hany⟩
    · exact .inl hvouched
    · exact .inl hvouched
    · exact .inr ⟨hunlisted, hunicast⟩
    · obtain ⟨entry, hentry⟩ := hany
      exact absurd hentry (unlisted_iff.mp hunlisted entry)
  · rintro (hvouched | ⟨hunlisted, hunicast⟩)
    · exact ⟨.inl hvouched, .inr hvouched.decides⟩
    · exact ⟨.inr hunlisted, .inl hunicast⟩

/-! ## Other tables -/

/-- The IPv4 test with another table. -/
def ipv4IsGlobalIn (table : List (RegistryEntry 32)) (address : Ipv4Addr) : Bool :=
  if address.isMulticast || address == .broadcast then false
  else (Prefix.mostSpecific RegistryEntry.network RegistryEntry.length table address.bits).all
    RegistryEntry.eligible

/-- The IPv6 test with another table. -/
def ipv6IsGlobalIn (table : List (RegistryEntry 128)) (address : Ipv6Addr) : Bool :=
  if address.isMulticast || address.toIpv4Mapped.isSome then false
  else
    let special :=
      Prefix.mostSpecific RegistryEntry.network RegistryEntry.length table address.bits
    if globalUnicast address then special.all RegistryEntry.eligible
    else special.any RegistryEntry.eligible

theorem ipv4IsGlobalIn_perm {table : List (RegistryEntry 32)} (h : table.Perm ipv4SpecialPurpose)
    (address : Ipv4Addr) : ipv4IsGlobalIn table address = ipv4IsGlobal address := by
  rw [ipv4IsGlobalIn, Prefix.mostSpecific_perm ipv4_unambiguous h.symm]
  rfl

theorem ipv6IsGlobalIn_perm {table : List (RegistryEntry 128)} (h : table.Perm ipv6SpecialPurpose)
    (address : Ipv6Addr) : ipv6IsGlobalIn table address = ipv6IsGlobal address := by
  rw [ipv6IsGlobalIn, Prefix.mostSpecific_perm ipv6_unambiguous h.symm]
  rfl

/-! ## Blocks with one verdict -/

/-- A block of a table that is judged the same way as every longer block within it. -/
def JudgedBlock {w : ℕ} (table : List (RegistryEntry w)) (network : BitVec w) (length : ℕ)
    (verdict : Bool) : Prop :=
  (∃ entry ∈ table, entry.network = network ∧ entry.length = length) ∧
    ∀ entry ∈ table, length ≤ entry.length →
      Prefix.contains network length entry.network = true → entry.eligible = verdict

instance {w : ℕ} (table : List (RegistryEntry w)) (network : BitVec w) (length : ℕ)
    (verdict : Bool) : Decidable (JudgedBlock table network length verdict) :=
  inferInstanceAs (Decidable ((∃ entry ∈ table, _ ∧ _) ∧ ∀ entry ∈ table, _ → _ → _))

/-- What decides an address of such a block has its verdict. -/
theorem JudgedBlock.decides {w length : ℕ} {table : List (RegistryEntry w)} {verdict : Bool}
    {network address : BitVec w} (h : JudgedBlock table network length verdict)
    (ha : Prefix.contains network length address = true) :
    ∃ entry, Decides table address entry ∧ entry.eligible = verdict := by
  obtain ⟨⟨block, hmem, rfl, rfl⟩, hjudged⟩ := h
  obtain ⟨entry, hentry⟩ := Prefix.exists_isMostSpecific.mpr ⟨block, hmem, ha⟩
  have hle : block.length ≤ entry.length := hentry.longest block hmem ha
  exact ⟨entry, hentry, hjudged entry hentry.mem hle
    (Prefix.contains_network hle ha hentry.contains)⟩

/-- The address is in the block of an IPv4 network. -/
def within4 (a b c d : UInt8) (length : ℕ) (address : Ipv4Addr) : Prop :=
  Prefix.contains (Ipv4Addr.ofOctets ⟨a, b, c, d⟩).bits length address.bits = true

/-- The address is in the block of an IPv6 network. -/
def within6 (segments : List ℕ) (length : ℕ) (address : Ipv6Addr) : Prop :=
  Prefix.contains (Ipv6Addr.ofSegments segments).bits length address.bits = true

theorem not_global_of_refused4 {a b c d : UInt8} {length : ℕ} {address : Ipv4Addr}
    (h : JudgedBlock ipv4SpecialPurpose (Ipv4Addr.ofOctets ⟨a, b, c, d⟩).bits length false)
    (ha : within4 a b c d length address) : ipv4IsGlobal address = false := by
  obtain ⟨entry, hentry, hrefused⟩ := h.decides ha
  by_contra hglobal
  rw [Bool.not_eq_false] at hglobal
  have hroutable : GloballyRoutable (.v4 address) := (ipIsGlobal_iff (.v4 address)).mp hglobal
  exact absurd (hroutable.2.2 entry hentry) (by rw [hrefused]; exact Bool.false_ne_true)

theorem not_global_of_refused6 {segments : List ℕ} {length : ℕ} {address : Ipv6Addr}
    (h : JudgedBlock ipv6SpecialPurpose (Ipv6Addr.ofSegments segments).bits length false)
    (ha : within6 segments length address) : ipv6IsGlobal address = false := by
  obtain ⟨entry, hentry, hrefused⟩ := h.decides ha
  by_contra hglobal
  rw [Bool.not_eq_false] at hglobal
  have hroutable : GloballyRoutable (.v6 address) := (ipIsGlobal_iff (.v6 address)).mp hglobal
  exact absurd (hroutable.2.2.1 entry hentry) (by rw [hrefused]; exact Bool.false_ne_true)

/-! ## Addresses that are never reachable -/

/-- Loopback, private, link-local, multicast and unspecified IPv4 addresses. -/
def Reserved4 (address : Ipv4Addr) : Prop :=
  within4 127 0 0 0 8 address ∨ within4 10 0 0 0 8 address ∨ within4 172 16 0 0 12 address ∨
    within4 192 168 0 0 16 address ∨ within4 169 254 0 0 16 address ∨
    address.isMulticast = true ∨ within4 0 0 0 0 32 address

/-- Loopback, unique local, link-local, multicast, unspecified and IPv4-mapped IPv6 addresses. -/
def Reserved6 (address : Ipv6Addr) : Prop :=
  address.isLoopback = true ∨ within6 [0xfc00, 0, 0, 0, 0, 0, 0, 0] 7 address ∨
    within6 [0xfe80, 0, 0, 0, 0, 0, 0, 0] 10 address ∨ address.isMulticast = true ∨
    within6 [0, 0, 0, 0, 0, 0, 0, 0] 128 address ∨
    within6 [0, 0, 0, 0, 0, 0xffff, 0, 0] 96 address

theorem not_global_of_reserved4 {address : Ipv4Addr} (h : Reserved4 address) :
    ipv4IsGlobal address = false := by
  rcases h with h | h | h | h | h | h | h
  · exact not_global_of_refused4 (by decide +kernel) h
  · exact not_global_of_refused4 (by decide +kernel) h
  · exact not_global_of_refused4 (by decide +kernel) h
  · exact not_global_of_refused4 (by decide +kernel) h
  · exact not_global_of_refused4 (by decide +kernel) h
  · rw [ipv4IsGlobal, h]
    rfl
  · exact not_global_of_refused4 (by decide +kernel) h

theorem not_global_of_reserved6 {address : Ipv6Addr} (h : Reserved6 address) :
    ipv6IsGlobal address = false := by
  rcases h with h | h | h | h | h | h
  · obtain rfl : address = .loopback := beq_iff_eq.mp h
    decide +kernel
  · exact not_global_of_refused6 (by decide +kernel) h
  · exact not_global_of_refused6 (by decide +kernel) h
  · rw [ipv6IsGlobal, h]
    rfl
  · exact not_global_of_refused6 (by decide +kernel) h
  · exact not_global_of_refused6 (by decide +kernel) h

/-! ## The classification -/

theorem length_le_of_mem4 : ∀ entry ∈ ipv4SpecialPurpose, entry.length ≤ 32 := by decide +kernel

theorem length_le_of_mem6 : ∀ entry ∈ ipv6SpecialPurpose, entry.length ≤ 128 := by decide +kernel

/-- A block is the addresses from its first to its last, for every length up to the full width, and the
shift that masks an address is by less than the width. -/
def ExactBlocks (w : ℕ) : Prop :=
  ∀ (network address : BitVec w) (length : ℕ), length ≤ w →
    (Prefix.contains network length address = true ↔
      Prefix.first network length ≤ address.toNat ∧
        address.toNat ≤ Prefix.last network length) ∧
    (length ≠ 0 → w - length < w)

theorem exactBlocks {w : ℕ} : ExactBlocks w :=
  fun _ _ _ hle => ⟨Prefix.contains_iff, fun hne => by omega⟩

/-- **The classification is the rule of the most specific block.** -/
theorem address_rule :
    (∀ address : Ipv4Addr, ipv4IsGlobal address = true ↔
      (address.isMulticast = false ∧ address ≠ .broadcast) ∧
        (Vouched ipv4SpecialPurpose address.bits ∨ Unlisted ipv4SpecialPurpose address.bits)) ∧
    (∀ address : Ipv6Addr, ipv6IsGlobal address = true ↔
      (address.isMulticast = false ∧ address.toIpv4Mapped = none) ∧
        (Vouched ipv6SpecialPurpose address.bits ∨
          Unlisted ipv6SpecialPurpose address.bits ∧ globalUnicast address = true)) ∧
    (∀ table, table.Perm ipv4SpecialPurpose → ∀ address,
      ipv4IsGlobalIn table address = ipv4IsGlobal address) ∧
    (∀ table, table.Perm ipv6SpecialPurpose → ∀ address,
      ipv6IsGlobalIn table address = ipv6IsGlobal address) ∧
    (ExactBlocks 32 ∧ ∀ entry ∈ ipv4SpecialPurpose, entry.length ≤ 32) ∧
    (ExactBlocks 128 ∧ ∀ entry ∈ ipv6SpecialPurpose, entry.length ≤ 128) ∧
    (∀ address : Ipv4Addr, Reserved4 address → ipv4IsGlobal address = false) ∧
    (∀ address : Ipv6Addr, Reserved6 address → ipv6IsGlobal address = false) :=
  ⟨ipv4IsGlobal_iff, ipv6IsGlobal_iff, fun _ => ipv4IsGlobalIn_perm, fun _ => ipv6IsGlobalIn_perm,
    ⟨exactBlocks, length_le_of_mem4⟩, ⟨exactBlocks, length_le_of_mem6⟩,
    fun _ => not_global_of_reserved4, fun _ => not_global_of_reserved6⟩

/-! ## Translated addresses -/

/-- The IPv4 address in the last 32 bits. -/
def embeddedLast (address : Ipv6Addr) : Ipv4Addr := ⟨address.bits.extractLsb' 0 32⟩

/-- An IPv6 address of a format that stands for an IPv4 destination. A Teredo address holds its server
and, with every bit flipped, its client. -/
inductive Embeds : Ipv6Addr → Ipv4Addr → Prop
  | mapped {address : Ipv6Addr} {embedded : Ipv4Addr} (h : address.toIpv4Mapped = some embedded) :
    Embeds address embedded
  | compatible {address : Ipv6Addr} (h : within6 [0, 0, 0, 0, 0, 0, 0, 0] 96 address) :
    Embeds address (embeddedLast address)
  | nat64 {address : Ipv6Addr} (h : within6 [0x64, 0xff9b, 0, 0, 0, 0, 0, 0] 96 address) :
    Embeds address (embeddedLast address)
  | sixToFour {address : Ipv6Addr} (h : within6 [0x2002, 0, 0, 0, 0, 0, 0, 0] 16 address) :
    Embeds address ⟨address.bits.extractLsb' 80 32⟩
  | teredoServer {address : Ipv6Addr} (h : within6 [0x2001, 0, 0, 0, 0, 0, 0, 0] 32 address) :
    Embeds address ⟨address.bits.extractLsb' 64 32⟩
  | teredoClient {address : Ipv6Addr} (h : within6 [0x2001, 0, 0, 0, 0, 0, 0, 0] 32 address) :
    Embeds address ⟨~~~address.bits.extractLsb' 0 32⟩

/-- No block of a table that is vouched for meets the block of a network. -/
def Apart {w : ℕ} (table : List (RegistryEntry w)) (network : BitVec w) (length : ℕ) : Prop :=
  ∀ entry ∈ table, entry.eligible = true →
    (entry.length ≤ length → Prefix.contains entry.network entry.length network = false) ∧
    (length ≤ entry.length → Prefix.contains network length entry.network = false)

instance {w : ℕ} (table : List (RegistryEntry w)) (network : BitVec w) (length : ℕ) :
    Decidable (Apart table network length) :=
  inferInstanceAs (Decidable (∀ entry ∈ table, _ → _ ∧ _))

theorem Apart.not_vouched {w length : ℕ} {table : List (RegistryEntry w)}
    {network address : BitVec w} (h : Apart table network length)
    (ha : Prefix.contains network length address = true) : ¬ Vouched table address := by
  rintro ⟨entry, hentry, hflags⟩
  obtain ⟨hshort, hlong⟩ := h entry hentry.mem (entry.eligible_iff.mpr hflags)
  rcases Nat.le_total entry.length length with hle | hle
  · exact Bool.false_ne_true
      ((hshort hle).symm.trans (Prefix.contains_network hle hentry.contains ha))
  · exact Bool.false_ne_true
      ((hlong hle).symm.trans (Prefix.contains_network hle ha hentry.contains))

theorem not_global_of_compatible {address : Ipv6Addr}
    (h : within6 [0, 0, 0, 0, 0, 0, 0, 0] 96 address) : ipv6IsGlobal address = false := by
  by_contra hglobal
  rw [Bool.not_eq_false] at hglobal
  have hapart : Apart ipv6SpecialPurpose (Ipv6Addr.ofSegments [0, 0, 0, 0, 0, 0, 0, 0]).bits 96 := by
    decide +kernel
  rcases ((ipv6IsGlobal_iff address).mp hglobal).2 with hvouched | ⟨-, hunicast⟩
  · exact hapart.not_vouched h hvouched
  · have hnetwork := Prefix.contains_network (by decide) hunicast h
    exact absurd hnetwork (by decide +kernel)

/-- Of the addresses that stand for an IPv4 destination, only those of the well-known prefix of NAT64
are accepted. -/
theorem nat64_of_embeds {address : Ipv6Addr} {embedded : Ipv4Addr} (h : Embeds address embedded)
    (hglobal : ipv6IsGlobal address = true) :
    within6 [0x64, 0xff9b, 0, 0, 0, 0, 0, 0] 96 address ∧ embedded = embeddedLast address := by
  cases h with
  | mapped h =>
    have hnone := ((ipv6IsGlobal_iff address).mp hglobal).1.2
    rw [h] at hnone
    cases hnone
  | compatible h =>
    rw [not_global_of_compatible h] at hglobal
    cases hglobal
  | nat64 h => exact ⟨h, rfl⟩
  | sixToFour h =>
    rw [not_global_of_refused6 (by decide +kernel) h] at hglobal
    cases hglobal
  | teredoServer h =>
    rw [not_global_of_refused6 (by decide +kernel) h] at hglobal
    cases hglobal
  | teredoClient h =>
    rw [not_global_of_refused6 (by decide +kernel) h] at hglobal
    cases hglobal

theorem not_meet6 {segments segments' : List ℕ} {length length' : ℕ} {address : Ipv6Addr}
    (hle : length ≤ length')
    (hapart : Prefix.contains (Ipv6Addr.ofSegments segments).bits length
      (Ipv6Addr.ofSegments segments').bits = false)
    (h : within6 segments' length' address) : ¬ within6 segments length address := fun hwithin =>
  Bool.false_ne_true (hapart.symm.trans (Prefix.contains_network hle hwithin h))

theorem isMulticast_iff (address : Ipv6Addr) : address.isMulticast = true ↔
    within6 [0xff00, 0, 0, 0, 0, 0, 0, 0] 8 address := by
  rw [within6, Prefix.contains_iff_extract (by decide), Ipv6Addr.isMulticast, beq_iff_eq]
  exact Iff.rfl

theorem toIpv4Mapped_isSome_iff (address : Ipv6Addr) : address.toIpv4Mapped.isSome = true ↔
    within6 [0, 0, 0, 0, 0, 0xffff, 0, 0] 96 address := by
  rw [within6, Prefix.contains_iff_extract (by decide), Ipv6Addr.toIpv4Mapped]
  simp only [beq_iff_eq, Option.isSome_ite]
  exact Iff.rfl

/-- An address of the well-known prefix of NAT64 is accepted, whatever it stands for. -/
theorem global_of_nat64 {address : Ipv6Addr}
    (h : within6 [0x64, 0xff9b, 0, 0, 0, 0, 0, 0] 96 address) : ipv6IsGlobal address = true := by
  have hmulticast : address.isMulticast = false := by
    rw [← Bool.not_eq_true, isMulticast_iff]
    exact not_meet6 (by decide) (by decide +kernel) h
  have hmapped : address.toIpv4Mapped = none := by
    rw [← Option.not_isSome_iff_eq_none, toIpv4Mapped_isSome_iff]
    exact not_meet6 le_rfl (by decide +kernel) h
  have hjudged : JudgedBlock ipv6SpecialPurpose
      (Ipv6Addr.ofSegments [0x64, 0xff9b, 0, 0, 0, 0, 0, 0]).bits 96 true := by decide +kernel
  obtain ⟨entry, hentry, heligible⟩ := hjudged.decides h
  exact (ipv6IsGlobal_iff address).mpr
    ⟨⟨hmulticast, hmapped⟩, .inl ⟨entry, hentry, entry.eligible_iff.mp heligible⟩⟩

/-- **An accepted address stands for a reachable IPv4 destination exactly outside the well-known prefix
of NAT64 and where that prefix is followed by a reachable address.** -/
theorem translated_iff (address : Ipv6Addr) :
    (ipv6IsGlobal address = true →
        ∀ embedded, Embeds address embedded → ipv4IsGlobal embedded = true) ↔
      (within6 [0x64, 0xff9b, 0, 0, 0, 0, 0, 0] 96 address →
        ipv4IsGlobal (embeddedLast address) = true) := by
  constructor
  · intro h hnat64
    exact h (global_of_nat64 hnat64) _ (.nat64 hnat64)
  · intro h hglobal embedded hembeds
    obtain ⟨hnat64, rfl⟩ := nat64_of_embeds hembeds hglobal
    exact h hnat64

/-- 64:ff9b::127.0.0.1 is accepted, and 127.0.0.1 is not. -/
theorem translated_loopback : ¬ ∀ address : Ipv6Addr, ipv6IsGlobal address = true →
    ∀ embedded, Embeds address embedded → ipv4IsGlobal embedded = true := by
  intro h
  have hembeds : Embeds (.ofSegments [0x64, 0xff9b, 0, 0, 0, 0, 0x7f00, 1]) (.ofOctets ⟨127, 0, 0, 1⟩) :=
    .nat64 (by unfold within6; decide +kernel)
  exact absurd (h _ (by decide +kernel) _ hembeds) (by decide +kernel)

end Vhrn.Proxy
