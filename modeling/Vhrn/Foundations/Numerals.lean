import Mathlib.Data.Nat.Digits.Lemmas
import Vhrn.Foundations.Bytes

/-!
# Numerals in byte strings

Decimal and hexadecimal numerals as octet strings: writing a natural number in a base between 2 and
16 (`numeral`), reading digits back (`value`), and reading with an overflow check at every digit
(`checkedValue`), as machine-integer parsers do. `value_numeral` is the round trip, `lt_of_value_lt`
the order of numerals of one length, and `checkedValue_eq` says that checking at every digit only
refuses what exceeds the bound.
-/

namespace Vhrn.Numerals

/-- The digit of a value below 16, in lower case. -/
def digitByte (d : ℕ) : UInt8 := if d < 10 then UInt8.ofNat (48 + d) else UInt8.ofNat (87 + d)

/-- The value of a hexadecimal digit; octets outside the digits have none. -/
def digitValue? (b : UInt8) : Option ℕ :=
  if Ascii.isDigit b then some (b.toNat - 48)
  else if 97 ≤ b && b ≤ 102 then some (b.toNat - 87)
  else if 65 ≤ b && b ≤ 70 then some (b.toNat - 55)
  else none

/-- The value of a digit, 0 for an octet that is none. -/
def digitValue (b : UInt8) : ℕ := (digitValue? b).getD 0

/-- The numeral of a natural number, most significant digit first and without leading zeros. -/
def numeral (base n : ℕ) : Bytes :=
  if n = 0 then [48] else ((Nat.digits base n).map digitByte).reverse

/-- The number a digit string denotes. -/
def value (base : ℕ) (s : Bytes) : ℕ := s.foldl (fun acc b => acc * base + digitValue b) 0

/-- The number a digit string denotes, unless some prefix of it exceeds `bound`. -/
def checkedValue (base bound : ℕ) (s : Bytes) : Option ℕ :=
  s.foldlM (fun acc b =>
    let next := acc * base + digitValue b
    if next ≤ bound then some next else none) 0

/-- The decimal numeral. -/
abbrev decimal (n : ℕ) : Bytes := numeral 10 n

/-! ## Digits -/

theorem digitValue_digitByte : ∀ d < 16, digitValue (digitByte d) = d := by decide

theorem isHexDigit_digitByte : ∀ d < 16, Ascii.isHexDigit (digitByte d) = true := by decide

theorem isUpper_digitByte : ∀ d < 16, Ascii.isUpper (digitByte d) = false := by decide

theorem isDigit_digitByte : ∀ d < 10, Ascii.isDigit (digitByte d) = true := by decide

theorem digitByte_ne_zero : ∀ d < 16, d ≠ 0 → digitByte d ≠ 48 := by decide

theorem digitValue?_isSome (b : UInt8) : (digitValue? b).isSome = Ascii.isHexDigit b := by
  revert b; exact forall_byte (by decide +kernel)

theorem digitValue_lt (b : UInt8) : digitValue b < 16 := by
  revert b; exact forall_byte (by decide +kernel)

/-! ## The digits of a numeral -/

/-- A number below the base is one digit. -/
theorem numeral_of_lt {base n : ℕ} (h : n < base) :
    numeral base n = [digitByte n] := by
  unfold numeral
  split
  · rename_i hn
    rw [hn]
    rfl
  · rename_i hn
    rw [Nat.digits_of_lt base n hn h]
    rfl

/-- The last digit of a numeral is the remainder. -/
theorem numeral_of_ge {base n : ℕ} (h2 : 2 ≤ base) (h : base ≤ n) :
    numeral base n = numeral base (n / base) ++ [digitByte (n % base)] := by
  have hn : n ≠ 0 := by omega
  have hq : n / base ≠ 0 := (Nat.div_pos h (by omega)).ne'
  rw [numeral, numeral, if_neg hn, if_neg hq, Nat.digits_def' (by omega) (by omega), List.map_cons,
    List.reverse_cons]

/-! ## Reading back a numeral -/

section

variable {base : ℕ} (h2 : 2 ≤ base) (h16 : base ≤ 16)

theorem numeral_ne_nil (n : ℕ) : numeral base n ≠ [] := by
  unfold numeral
  split
  · simp
  · rename_i hn
    simpa using Nat.digits_ne_nil_iff_ne_zero.mpr hn

include h2 h16 in
theorem mem_numeral {n : ℕ} {b : UInt8} (hb : b ∈ numeral base n) :
    ∃ d < base, b = digitByte d := by
  unfold numeral at hb
  split at hb
  · obtain rfl := List.mem_singleton.mp hb
    exact ⟨0, by omega, rfl⟩
  · obtain ⟨d, hd, rfl⟩ := List.mem_map.mp (List.mem_reverse.mp hb)
    exact ⟨d, Nat.digits_lt_base (by omega) hd, rfl⟩

theorem foldl_reverse_ofDigits (ds : List ℕ) (hd : ∀ d ∈ ds, d < 16) :
    ((ds.map digitByte).reverse).foldl (fun acc b => acc * base + digitValue b) 0 =
      Nat.ofDigits base ds := by
  rw [List.foldl_reverse, List.foldr_map, Nat.ofDigits_eq_foldr]
  induction ds with
  | nil => rfl
  | cons d ds ih =>
    rw [List.foldr_cons, List.foldr_cons, ih fun x hx => hd x (by simp [hx]),
      digitValue_digitByte d (hd d (by simp)), Nat.cast_id]
    ring

include h2 h16 in
/-- **Reading a numeral gives back the number.** -/
theorem value_numeral (n : ℕ) : value base (numeral base n) = n := by
  unfold value numeral
  split
  · rename_i hn
    subst hn
    show 0 * base + digitValue 48 = 0
    rw [Nat.zero_mul]
    rfl
  · have hlt : ∀ d ∈ Nat.digits base n, d < 16 := fun d hd =>
      lt_of_lt_of_le (Nat.digits_lt_base (by omega) hd) h16
    rw [foldl_reverse_ofDigits _ hlt, Nat.ofDigits_digits]

include h2 in
/-- A number below a power of the base takes no more digits than its exponent. -/
theorem length_numeral_le {n k : ℕ} (hk : 1 ≤ k) (h : n < base ^ k) :
    (numeral base n).length ≤ k := by
  unfold numeral
  split
  · exact hk
  · rw [List.length_reverse, List.length_map]
    exact (Nat.digits_length_le_iff (by omega) n).mpr h

end

theorem isDigit_of_mem_decimal {n : ℕ} {b : UInt8} (hb : b ∈ decimal n) :
    Ascii.isDigit b = true := by
  obtain ⟨d, hd, rfl⟩ := mem_numeral (by omega) (by omega) hb
  exact isDigit_digitByte d hd

theorem isHexDigit_of_mem_numeral {n : ℕ} {b : UInt8} (hb : b ∈ numeral 16 n) :
    Ascii.isHexDigit b = true := by
  obtain ⟨d, hd, rfl⟩ := mem_numeral (by omega) le_rfl hb
  exact isHexDigit_digitByte d hd

/-- A numeral of more than one digit does not start with a zero. -/
theorem head?_numeral {base n : ℕ} (h2 : 2 ≤ base) (h16 : base ≤ 16)
    (h : 1 < (numeral base n).length) : (numeral base n).head? ≠ some 48 := by
  unfold numeral at *
  split at h
  · simp at h
  · rename_i hn
    have hne := Nat.digits_ne_nil_iff_ne_zero (b := base).mpr hn
    rw [if_neg hn, List.head?_reverse, List.getLast?_map, List.getLast?_eq_some_getLast hne]
    have hlt : (Nat.digits base n).getLast hne < 16 :=
      (Nat.digits_lt_base (by omega) (List.getLast_mem hne)).trans_le h16
    simpa using digitByte_ne_zero _ hlt (Nat.getLast_digit_ne_zero base hn)

/-! ## The order of numerals -/

theorem value_cons (base : ℕ) (b : UInt8) (s : Bytes) :
    value base (b :: s) = digitValue b * base ^ s.length + value base s := by
  have hfold (acc : ℕ) : s.foldl (fun acc b => acc * base + digitValue b) acc =
      acc * base ^ s.length + value base s := by
    induction s generalizing acc with
    | nil => simp [value]
    | cons c s ih =>
      have hvalue : value base (c :: s) = (0 * base + digitValue c) * base ^ s.length +
          value base s := ih (0 * base + digitValue c)
      rw [List.foldl_cons, ih, List.length_cons, hvalue]
      ring
  rw [value, List.foldl_cons, hfold, Nat.zero_mul, Nat.zero_add]

theorem value_replicate_zero (base k : ℕ) (s : Bytes) :
    value base (List.replicate k 48 ++ s) = value base s := by
  have hzero : digitValue 48 = 0 := by decide
  induction k with
  | zero => rfl
  | succ k ih =>
    rw [List.replicate_succ, List.cons_append, value_cons, hzero, ih, Nat.zero_mul, Nat.zero_add]

theorem digitValue_of_isDigit {b : UInt8} (h : Ascii.isDigit b = true) :
    digitValue b = b.toNat - 48 ∧ 48 ≤ b.toNat ∧ b.toNat ≤ 57 := by
  have hall (b : UInt8) : Ascii.isDigit b = true →
      digitValue b = b.toNat - 48 ∧ 48 ≤ b.toNat ∧ b.toNat ≤ 57 := by
    revert b; exact forall_byte (by decide +kernel)
  exact hall b h

/-- Digits denote a number below the power of the base of their length. -/
theorem value_lt {base : ℕ} {s : Bytes} (h : ∀ b ∈ s, digitValue b < base) :
    value base s < base ^ s.length := by
  induction s with
  | nil => exact Nat.one_pos
  | cons b s ih =>
    have hb : digitValue b + 1 ≤ base := h b (by simp)
    have hrest := ih fun c hc => h c (by simp [hc])
    have hmul := Nat.mul_le_mul_right (base ^ s.length) hb
    rw [Nat.add_mul, Nat.one_mul] at hmul
    rw [value_cons, List.length_cons, pow_succ']
    omega

/-- **Numerals of the same length are in the order of their values.** -/
theorem lt_of_value_lt {s t : Bytes} (hs : s.all Ascii.isDigit = true)
    (ht : t.all Ascii.isDigit = true) (hlen : s.length = t.length) (hlt : value 10 s < value 10 t) :
    s < t := by
  induction s generalizing t with
  | nil =>
    obtain rfl := List.length_eq_zero_iff.mp hlen.symm
    exact absurd hlt (lt_irrefl _)
  | cons b s ih =>
    obtain ⟨c, t, rfl⟩ := List.exists_cons_of_length_eq_add_one hlen.symm
    rw [List.length_cons, List.length_cons, Nat.add_right_cancel_iff] at hlen
    rw [List.all_cons, Bool.and_eq_true] at hs ht
    have hdigits {u : Bytes} (hu : u.all Ascii.isDigit = true) : value 10 u < 10 ^ u.length :=
      value_lt fun x hx => by
        have hx' := digitValue_of_isDigit (List.all_eq_true.mp hu x hx)
        omega
    have hs' := hdigits hs.2
    have ht' := hdigits ht.2
    obtain ⟨hb, hb48, -⟩ := digitValue_of_isDigit hs.1
    obtain ⟨hc, hc48, -⟩ := digitValue_of_isDigit ht.1
    rw [value_cons, value_cons, hlen] at hlt
    rw [hlen] at hs'
    rw [List.cons_lt_cons_iff]
    rcases lt_trichotomy b.toNat c.toNat with hbc | hbc | hbc
    · exact .inl (UInt8.lt_iff_toNat_lt.mpr hbc)
    · have hdigit : digitValue b = digitValue c := by omega
      exact .inr ⟨UInt8.toNat_inj.mp hbc, ih hs.2 ht.2 hlen (by rw [hdigit] at hlt; omega)⟩
    · have hdigit : digitValue c + 1 ≤ digitValue b := by omega
      have hmul := Nat.mul_le_mul_right (10 ^ t.length) hdigit
      rw [Nat.add_mul, Nat.one_mul] at hmul
      omega

/-! ## Checked reading -/

theorem foldl_mono {base : ℕ} (s : Bytes) (acc : ℕ) (hb : 1 ≤ base) :
    acc ≤ s.foldl (fun acc b => acc * base + digitValue b) acc := by
  induction s generalizing acc with
  | nil => exact le_rfl
  | cons b s ih =>
    have hmul : acc * 1 ≤ acc * base := Nat.mul_le_mul_left acc hb
    exact (show acc ≤ acc * base + digitValue b by omega).trans (ih _)

/-- **A checked reading refuses exactly the numbers above the bound.** -/
theorem checkedValue_eq {base bound : ℕ} (hb : 1 ≤ base) (s : Bytes) :
    checkedValue base bound s = if value base s ≤ bound then some (value base s) else none := by
  suffices h : ∀ acc ≤ bound, s.foldlM (fun acc b =>
      let next := acc * base + digitValue b
      if next ≤ bound then some next else none) acc =
        if s.foldl (fun acc b => acc * base + digitValue b) acc ≤ bound then
          some (s.foldl (fun acc b => acc * base + digitValue b) acc) else none from
    h 0 (Nat.zero_le _)
  induction s with
  | nil => intro acc hacc; simp [hacc]
  | cons b s ih =>
    intro acc hacc
    rw [List.foldlM_cons, List.foldl_cons]
    by_cases hn : acc * base + digitValue b ≤ bound
    · simpa [hn] using ih _ hn
    · have hlt : ¬ s.foldl (fun acc b => acc * base + digitValue b) (acc * base + digitValue b) ≤
          bound := fun hle => hn ((foldl_mono s _ hb).trans hle)
      simp [hn, hlt]

end Vhrn.Numerals
