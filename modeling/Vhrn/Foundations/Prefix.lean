import Mathlib.Data.List.Basic
import Mathlib.Tactic

/-!
# Address prefixes

A table of address blocks, each the addresses that share the first bits of a network, and the most
specific block of the table that contains an address. In a table without two blocks of one length that
overlap (`Unambiguous`) that block is determined by the address (`mostSpecific_eq_some`).
-/

namespace Vhrn.Prefix

variable {w : ℕ} {ε : Type*}

/-- The first `length` bits. -/
def mask (w length : ℕ) : BitVec w := if length = 0 then 0 else BitVec.allOnes w <<< (w - length)

/-- The address is in the block of a network. -/
def contains (network : BitVec w) (length : ℕ) (address : BitVec w) : Bool :=
  address &&& mask w length == network &&& mask w length

/-! ## Blocks -/

/-- The first address of a block. -/
def first (network : BitVec w) (length : ℕ) : ℕ :=
  network.toNat / 2 ^ (w - length) * 2 ^ (w - length)

/-- The last address of a block. -/
def last (network : BitVec w) (length : ℕ) : ℕ := first network length + (2 ^ (w - length) - 1)

theorem getLsbD_mask {length : ℕ} (h : length ≠ 0) (i : ℕ) :
    (mask w length).getLsbD i = (decide (i < w) && decide (w - length ≤ i)) := by
  rw [mask, if_neg h, BitVec.getLsbD_shiftLeft, BitVec.getLsbD_allOnes, Bool.eq_iff_iff]
  simp only [Bool.and_eq_true, Bool.not_eq_true', decide_eq_true_eq, decide_eq_false_iff_not]
  omega

/-- Two addresses agree under a mask when they agree without the masked bits. -/
theorem and_mask_eq_iff {length : ℕ} (h : length ≠ 0) (a b : BitVec w) :
    a &&& mask w length = b &&& mask w length ↔ a >>> (w - length) = b >>> (w - length) := by
  constructor
  · intro hab
    refine BitVec.eq_of_getLsbD_eq fun i _ => ?_
    rw [BitVec.getLsbD_ushiftRight, BitVec.getLsbD_ushiftRight]
    by_cases hi : w - length + i < w
    · have hbit := congrArg (BitVec.getLsbD · (w - length + i)) hab
      simpa only [BitVec.getLsbD_and, getLsbD_mask h, hi, Nat.le_add_right, decide_true,
        Bool.and_true] using hbit
    · rw [BitVec.getLsbD_of_ge a _ (by omega), BitVec.getLsbD_of_ge b _ (by omega)]
  · intro hab
    refine BitVec.eq_of_getLsbD_eq fun i hi => ?_
    rw [BitVec.getLsbD_and, BitVec.getLsbD_and, getLsbD_mask h]
    by_cases hle : w - length ≤ i
    · have hbit := congrArg (BitVec.getLsbD · (i - (w - length))) hab
      simp only [BitVec.getLsbD_ushiftRight, Nat.add_sub_cancel' hle] at hbit
      rw [hbit]
    · simp [hle]

/-- **A block is an interval of addresses.** The first `length` bits of its addresses are those of the
network; there are none of them to compare when the length is zero, and all when it is the full width. -/
theorem contains_iff_div {length : ℕ} {network address : BitVec w} :
    contains network length address = true ↔
      address.toNat / 2 ^ (w - length) = network.toNat / 2 ^ (w - length) := by
  rw [contains, beq_iff_eq]
  by_cases h : length = 0
  · subst h
    rw [Nat.sub_zero, Nat.div_eq_of_lt address.isLt, Nat.div_eq_of_lt network.isLt]
    simp [mask]
  · rw [and_mask_eq_iff h, ← BitVec.toNat_inj, BitVec.toNat_ushiftRight, BitVec.toNat_ushiftRight,
      Nat.shiftRight_eq_div_pow, Nat.shiftRight_eq_div_pow]

theorem contains_iff {length : ℕ} {network address : BitVec w} :
    contains network length address = true ↔
      first network length ≤ address.toNat ∧ address.toNat ≤ last network length := by
  have hpos : 0 < 2 ^ (w - length) := Nat.two_pow_pos _
  rw [contains_iff_div, Nat.div_eq_iff hpos, last, first]
  omega

/-- A block is the addresses that share their first bits. -/
theorem contains_iff_extract {length : ℕ} (hle : length ≤ w) {network address : BitVec w} :
    contains network length address = true ↔
      address.extractLsb' (w - length) length = network.extractLsb' (w - length) length := by
  have hbits (a : BitVec w) :
      (a.extractLsb' (w - length) length).toNat = a.toNat / 2 ^ (w - length) := by
    rw [BitVec.extractLsb'_toNat, Nat.shiftRight_eq_div_pow, Nat.mod_eq_of_lt]
    rw [Nat.div_lt_iff_lt_mul (Nat.two_pow_pos _), ← pow_add, Nat.add_sub_cancel' hle]
    exact a.isLt
  rw [contains_iff_div, ← BitVec.toNat_inj, hbits, hbits]

/-- A block within a block: an address of both, and the network of the smaller one. -/
theorem contains_network {length length' : ℕ} {network network' address : BitVec w}
    (hle : length ≤ length') (h : contains network length address = true)
    (h' : contains network' length' address = true) : contains network length network' = true := by
  rw [contains_iff_div] at h h' ⊢
  rw [← h]
  have hsplit : 2 ^ (w - length) = 2 ^ (w - length') * 2 ^ (w - length - (w - length')) := by
    rw [← pow_add]
    congr 1
    omega
  rw [hsplit, ← Nat.div_div_eq_div_mul, ← Nat.div_div_eq_div_mul, h']

/-! ## Tables -/

/-- The last of the longest entries. -/
def longest (length : ε → ℕ) : List ε → Option ε
  | [] => none
  | e :: entries =>
    match longest length entries with
    | some e' => if length e ≤ length e' then some e' else some e
    | none => some e

theorem longest_eq_none {length : ε → ℕ} {entries : List ε} :
    longest length entries = none ↔ entries = [] := by
  cases entries with
  | nil => simp [longest]
  | cons e entries =>
    refine iff_of_false ?_ (by simp)
    rw [longest]
    cases longest length entries with
    | none => simp
    | some e' =>
      simp only
      split <;> simp

theorem longest_eq_some {length : ε → ℕ} {entries : List ε} {e : ε}
    (h : longest length entries = some e) : e ∈ entries ∧ ∀ e' ∈ entries, length e' ≤ length e := by
  induction entries generalizing e with
  | nil => cases h
  | cons e₀ entries ih =>
    rw [longest] at h
    cases hrest : longest length entries with
    | none =>
      rw [hrest] at h
      obtain rfl := Option.some.inj h
      rw [longest_eq_none.mp hrest]
      simp
    | some e₁ =>
      rw [hrest] at h
      obtain ⟨hmem, hmax⟩ := ih hrest
      simp only at h
      split at h
      · rename_i hle
        obtain rfl := Option.some.inj h
        refine ⟨List.mem_cons_of_mem _ hmem, fun e' he' => ?_⟩
        rcases List.mem_cons.mp he' with rfl | he'
        · exact hle
        · exact hmax e' he'
      · rename_i hlt
        obtain rfl := Option.some.inj h
        refine ⟨List.mem_cons_self, fun e' he' => ?_⟩
        rcases List.mem_cons.mp he' with rfl | he'
        · exact le_rfl
        · exact (hmax e' he').trans (by omega)

section

variable (network : ε → BitVec w) (length : ε → ℕ)

/-- The most specific entry of a table for an address. -/
def mostSpecific (table : List ε) (address : BitVec w) : Option ε :=
  longest length (table.filter fun e => contains (network e) (length e) address)

/-- No entry that contains the address is longer. -/
structure IsMostSpecific (table : List ε) (address : BitVec w) (e : ε) : Prop where
  mem : e ∈ table
  contains : contains (network e) (length e) address = true
  longest : ∀ e' ∈ table, Prefix.contains (network e') (length e') address = true →
    length e' ≤ length e

/-- Different blocks of one length do not overlap. -/
def Unambiguous (table : List ε) : Prop :=
  ∀ e ∈ table, ∀ e' ∈ table, length e = length e' →
    network e &&& mask w (length e) = network e' &&& mask w (length e) → e = e'

instance [DecidableEq ε] (table : List ε) : Decidable (Unambiguous network length table) :=
  inferInstanceAs (Decidable (∀ e ∈ table, ∀ e' ∈ table, _ → _ → _))

variable {network length} {table : List ε} {address : BitVec w}

theorem mostSpecific_eq_none : mostSpecific network length table address = none ↔
    ∀ e, ¬ IsMostSpecific network length table address e := by
  constructor
  · intro h e he
    have hmem : e ∈ table.filter fun e => contains (network e) (length e) address :=
      List.mem_filter.mpr ⟨he.mem, he.contains⟩
    rw [longest_eq_none.mp h] at hmem
    cases hmem
  · intro h
    cases hm : mostSpecific network length table address with
    | none => rfl
    | some e =>
      obtain ⟨hmem, hmax⟩ := longest_eq_some hm
      obtain ⟨hmem, hcontains⟩ := List.mem_filter.mp hmem
      exact absurd ⟨hmem, hcontains, fun e' he' hc => hmax e' (List.mem_filter.mpr ⟨he', hc⟩)⟩ (h e)

/-- **The most specific entry is the one that no longer block of the table contains.** -/
theorem mostSpecific_eq_some (ht : Unambiguous network length table) {e : ε} :
    mostSpecific network length table address = some e ↔
      IsMostSpecific network length table address e := by
  constructor
  · intro h
    obtain ⟨hmem, hmax⟩ := longest_eq_some h
    obtain ⟨hmem, hcontains⟩ := List.mem_filter.mp hmem
    exact ⟨hmem, hcontains, fun e' he' hc => hmax e' (List.mem_filter.mpr ⟨he', hc⟩)⟩
  · intro h
    cases hm : mostSpecific network length table address with
    | none => exact absurd h (mostSpecific_eq_none.mp hm e)
    | some e' =>
      obtain ⟨hmem, hmax⟩ := longest_eq_some hm
      obtain ⟨hmem, hcontains⟩ := List.mem_filter.mp hmem
      have hle := h.longest e' hmem hcontains
      have hmem' : e ∈ table.filter fun e => contains (network e) (length e) address :=
        List.mem_filter.mpr ⟨h.mem, h.contains⟩
      have hge := hmax e hmem'
      have hlen : length e' = length e := le_antisymm hle hge
      have h₁ := beq_iff_eq.mp hcontains
      have h₂ := beq_iff_eq.mp h.contains
      rw [← hlen] at h₂
      rw [ht e' hmem e h.mem hlen (h₁.symm.trans h₂)]

/-- A table in another order says the same. -/
theorem Unambiguous.perm {table' : List ε} (h : Unambiguous network length table)
    (hp : table.Perm table') : Unambiguous network length table' :=
  fun e he e' he' => h e (hp.mem_iff.mpr he) e' (hp.mem_iff.mpr he')

theorem IsMostSpecific.perm {table' : List ε} {e : ε}
    (h : IsMostSpecific network length table address e) (hp : table.Perm table') :
    IsMostSpecific network length table' address e :=
  ⟨hp.mem_iff.mp h.mem, h.contains, fun e' he' => h.longest e' (hp.mem_iff.mpr he')⟩

/-- **The most specific entry does not depend on the order of the table.** -/
theorem mostSpecific_perm {table' : List ε} (ht : Unambiguous network length table)
    (hp : table.Perm table') :
    mostSpecific network length table' address = mostSpecific network length table address := by
  ext e
  rw [mostSpecific_eq_some (ht.perm hp), mostSpecific_eq_some ht]
  exact ⟨fun h => h.perm hp.symm, fun h => h.perm hp⟩

/-- No entry is most specific exactly when none contains the address. -/
theorem exists_isMostSpecific : (∃ e, IsMostSpecific network length table address e) ↔
    ∃ e ∈ table, contains (network e) (length e) address = true := by
  constructor
  · rintro ⟨e, he⟩
    exact ⟨e, he.mem, he.contains⟩
  · rintro ⟨e, hmem, hcontains⟩
    by_contra hnone
    have hfilter := longest_eq_none.mp (mostSpecific_eq_none.mpr (not_exists.mp hnone))
    have he : e ∈ table.filter fun e => contains (network e) (length e) address :=
      List.mem_filter.mpr ⟨hmem, hcontains⟩
    rw [hfilter] at he
    cases he

end

end Vhrn.Prefix
