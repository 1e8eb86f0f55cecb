import Vhrn.Foundations.Net
import Vhrn.Foundations.Split

/-!
# Host names and policy entries

The proxy reads host names twice: as the host of a request (`DomainName`) and as an entry of a
policy file (`PolicyEntry`). Both are values that carry their validity. An entry matches a host when
its labels end the host's labels (`DomainPattern.matches_iff`).
-/

namespace Vhrn.Proxy

/-- The labels of a name. -/
def labels (name : Bytes) : List Bytes := name.splitOn 46

/-! ## Request hosts -/

def validLabel (label : Bytes) : Bool :=
  !label.isEmpty && decide (label.length ≤ 63) && label.head? != some 45 &&
    label.getLast? != some 45 && label.all fun byte => Ascii.isAlnum byte || byte == 45

def validDomain (value : Bytes) : Bool :=
  isAscii value && decide (value.length ≤ 253) && (labels value).all validLabel

theorem labels_lower (value : Bytes) : labels (lower value) = (labels value).map lower :=
  splitOn_map Ascii.toLower fun _ _ => Ascii.toLower_eq_iff (by decide)

theorem validLabel_lower (label : Bytes) : validLabel (lower label) = validLabel label := by
  have hhead : (lower label).head? = label.head?.map Ascii.toLower := List.head?_map
  have hlast : (lower label).getLast? = label.getLast?.map Ascii.toLower := List.getLast?_map
  have hdash (b : UInt8) : Ascii.toLower b = 45 ↔ b = 45 := Ascii.toLower_eq_iff (by decide)
  have hne (o : Option UInt8) : (o.map Ascii.toLower != some 45) = (o != some 45) := by
    cases o with
    | none => rfl
    | some b =>
      rw [Bool.eq_iff_iff]
      simp [hdash]
  have hempty : (lower label).isEmpty = label.isEmpty := by
    rw [Bool.eq_iff_iff, List.isEmpty_iff, List.isEmpty_iff, lower_eq_nil]
  have hall : (lower label).all (fun b => Ascii.isAlnum b || b == 45) =
      label.all fun b => Ascii.isAlnum b || b == 45 := by
    rw [lower, List.all_map]
    refine congrArg (label.all ·) (funext fun b => ?_)
    rw [Bool.eq_iff_iff]
    simp [hdash]
  rw [validLabel, validLabel, hhead, hlast, hne, hne, hempty, hall, length_lower]

theorem isAscii_lower (value : Bytes) : isAscii (lower value) = isAscii value := by
  have hb (b : UInt8) : decide (Ascii.toLower b < 128) = decide (b < 128) := by
    revert b; exact forall_byte (by decide +kernel)
  rw [isAscii, isAscii, lower, List.all_map]
  exact congrArg (value.all ·) (funext hb)

theorem validDomain_lower (value : Bytes) : validDomain (lower value) = validDomain value := by
  rw [validDomain, validDomain, isAscii_lower, length_lower, labels_lower, List.all_map]
  exact congrArg (_ && List.all (labels value) ·) (funext validLabel_lower)

/-- A normalised request host name. -/
structure DomainName where
  text : Bytes
  valid : validDomain text = true
  lowercase : lower text = text

theorem DomainName.ext {x y : DomainName} (h : x.text = y.text) : x = y := by
  cases x
  cases y
  cases h
  rfl

instance : DecidableEq DomainName := fun x y =>
  decidable_of_iff (x.text = y.text) ⟨DomainName.ext, congrArg DomainName.text⟩

def DomainName.display (name : DomainName) : Bytes := name.text

def DomainName.fromStr (value : Bytes) : Option DomainName :=
  if value.isEmpty || trim value != value then none
  else
    let value := (stripSuffix [46] value).getD value
    if h : validDomain value = true then
      some ⟨lower value, by rw [validDomain_lower, h], lower_lower value⟩
    else none

/-! ## Policy entries -/

def validPolicyByte (byte : UInt8) : Bool :=
  Ascii.isLower byte || Ascii.isDigit byte || byte == 45 || byte == 95 || byte == 46

def validPolicyDomain (value : Bytes) : Bool :=
  isAscii value && !value.isEmpty && (labels value).all (fun label => !label.isEmpty) &&
    value.all validPolicyByte && value.any Ascii.isAlnum

/-- A persisted policy host name, kept apart from request hosts. -/
structure PolicyDomain where
  text : Bytes
  valid : validPolicyDomain text = true

theorem PolicyDomain.ext {x y : PolicyDomain} (h : x.text = y.text) : x = y := by
  cases x
  cases y
  cases h
  rfl

instance : DecidableEq PolicyDomain := fun x y =>
  decidable_of_iff (x.text = y.text) ⟨PolicyDomain.ext, congrArg PolicyDomain.text⟩

def PolicyDomain.fromStr (value : Bytes) : Option PolicyDomain :=
  if h : validPolicyDomain value = true then some ⟨value, h⟩ else none

structure DomainPattern where
  domain : PolicyDomain
  deriving DecidableEq

def DomainPattern.fromStr (value : Bytes) : Option DomainPattern :=
  let value := trim value
  let value := trimBy (· == 46) ((stripPrefix [42, 46] value).getD value)
  (PolicyDomain.fromStr (lower value)).map .mk

def DomainPattern.matches (pattern : DomainPattern) (host : DomainName) : Bool :=
  host.text == pattern.domain.text ||
    (stripSuffix pattern.domain.text host.text).any fun rest => rest.getLast? == some 46

inductive PolicyEntry
  | domain (pattern : DomainPattern)
  | ip (address : Ipv4Addr)
  deriving DecidableEq

def PolicyEntry.fromStr (value : Bytes) : Option PolicyEntry :=
  if !validPolicyDomain value then none
  else match Ipv4Addr.fromStr value with
    | some address =>
      if address.display = value then some (.ip address)
      else (DomainPattern.fromStr value).map .domain
    | none => (DomainPattern.fromStr value).map .domain

/-- The text an entry stands for. -/
def PolicyEntry.text : PolicyEntry → Bytes
  | .domain pattern => pattern.domain.text
  | .ip address => address.display

/-! ## What an entry matches -/

/-- **An entry matches a host when its labels end the host's labels.** -/
theorem DomainPattern.matches_iff (pattern : DomainPattern) (host : DomainName) :
    pattern.matches host = true ↔ labels pattern.domain.text <:+ labels host.text := by
  unfold DomainPattern.matches labels
  rw [splitOn_suffix_iff, Bool.or_eq_true, beq_iff_eq, Option.any_eq_true]
  constructor
  · rintro (h | ⟨rest, hstrip, hlast⟩)
    · exact .inl h
    · obtain ⟨q, rfl⟩ := List.getLast?_eq_some_iff.mp (by simpa using hlast)
      exact .inr ⟨q, by rw [stripSuffix_eq_some.mp hstrip]; simp⟩
  · rintro (h | ⟨q, hq⟩)
    · exact .inl h
    · refine .inr ⟨q ++ [46], stripSuffix_eq_some.mpr (by rw [hq]; simp), by simp⟩

/-! ## Reading an entry back -/

section

variable {value : Bytes} (h : validPolicyDomain value = true)

include h

theorem validPolicyDomain_byte {b : UInt8} (hb : b ∈ value) : validPolicyByte b = true := by
  simp only [validPolicyDomain, Bool.and_eq_true] at h
  exact List.all_eq_true.mp h.1.2 b hb

theorem validPolicyDomain_ne_nil : value ≠ [] := by
  simp only [validPolicyDomain, Bool.and_eq_true] at h
  simpa using h.1.1.1.2

theorem validPolicyDomain_label {label : Bytes} (hl : label ∈ labels value) : label ≠ [] := by
  simp only [validPolicyDomain, Bool.and_eq_true] at h
  simpa using List.all_eq_true.mp h.1.1.2 label hl

/-- No label is empty, so the name does not start with a dot. -/
theorem validPolicyDomain_head : value.head? ≠ some 46 := by
  intro hh
  obtain ⟨rest, rfl⟩ := List.head?_eq_some_iff.mp hh
  refine (?_ : ([] : Bytes) ≠ []) rfl
  refine validPolicyDomain_label h ?_
  rw [labels, List.splitOn_cons_eq_if_modifyHead]
  simp

theorem validPolicyDomain_getLast : value.getLast? ≠ some 46 := by
  intro hl
  obtain ⟨rest, rfl⟩ := List.getLast?_eq_some_iff.mp hl
  refine (?_ : ([] : Bytes) ≠ []) rfl
  refine validPolicyDomain_label h ?_
  rw [labels, List.splitOn_append_cons_self]
  simp

theorem trimBy_policyDomain : trimBy (· == 46) value = value := by
  refine trimBy_eq_self (fun b hb => ?_) (fun b hb => ?_)
  · exact beq_eq_false_iff_ne.mpr fun h' => validPolicyDomain_head h (h' ▸ hb)
  · exact beq_eq_false_iff_ne.mpr fun h' => validPolicyDomain_getLast h (h' ▸ hb)

theorem lower_policyDomain : lower value = value := by
  have hb (b : UInt8) : validPolicyByte b = true → Ascii.isUpper b = false := by
    revert b; exact forall_byte (by decide +kernel)
  exact lower_eq_self fun b hm => hb b (validPolicyDomain_byte h hm)

theorem trim_policyDomain : trim value = value := by
  have hb (b : UInt8) : validPolicyByte b = true → b < 128 ∧ isSpace1 b = false := by
    revert b; exact forall_byte (by decide +kernel)
  exact trim_eq_self (fun b hm => hb b (validPolicyDomain_byte h (List.mem_of_mem_head? hm)))
    fun b hm => hb b (validPolicyDomain_byte h (List.mem_of_getLast? hm))

theorem stripPrefix_policyDomain : stripPrefix [42, 46] value = none := by
  by_contra hn
  obtain ⟨rest, hr⟩ := Option.ne_none_iff_exists'.mp hn
  have hmem : (42 : UInt8) ∈ value := by rw [stripPrefix_eq_some.mp hr]; simp
  exact absurd (validPolicyDomain_byte h hmem) (by decide)

theorem DomainPattern.fromStr_of_valid : DomainPattern.fromStr value = some ⟨⟨value, h⟩⟩ := by
  simp only [DomainPattern.fromStr, trim_policyDomain h, stripPrefix_policyDomain h,
    Option.getD_none, trimBy_policyDomain h, lower_policyDomain h, PolicyDomain.fromStr, h,
    ↓reduceDIte, Option.map_some]

/-- A valid policy name is an IPv4 entry when it is the canonical text of an address, and a domain
entry otherwise. -/
theorem PolicyEntry.fromStr_of_valid :
    (∃ address : Ipv4Addr, address.display = value ∧
      PolicyEntry.fromStr value = some (.ip address)) ∨
    PolicyEntry.fromStr value = some (.domain ⟨⟨value, h⟩⟩) := by
  unfold PolicyEntry.fromStr
  simp only [h, Bool.not_true, Bool.false_eq_true, ↓reduceIte, DomainPattern.fromStr_of_valid h,
    Option.map_some]
  cases Ipv4Addr.fromStr value with
  | none => exact .inr rfl
  | some address =>
    by_cases hd : address.display = value
    · exact .inl ⟨address, hd, if_pos hd⟩
    · exact .inr (if_neg hd)

end

/-- An entry is read exactly from a valid policy name. -/
theorem PolicyEntry.fromStr_isSome (value : Bytes) :
    (PolicyEntry.fromStr value).isSome = validPolicyDomain value := by
  cases h : validPolicyDomain value with
  | false => simp [PolicyEntry.fromStr, h]
  | true =>
    rcases PolicyEntry.fromStr_of_valid h with ⟨_, -, he⟩ | he
    · rw [he, Option.isSome_some]
    · rw [he, Option.isSome_some]

/-- An entry stands for the text it was read from. -/
theorem PolicyEntry.text_fromStr {value : Bytes} {entry : PolicyEntry}
    (h : PolicyEntry.fromStr value = some entry) : entry.text = value := by
  have hv : validPolicyDomain value = true := by
    rw [← PolicyEntry.fromStr_isSome, h, Option.isSome_some]
  rcases PolicyEntry.fromStr_of_valid hv with ⟨address, hd, he⟩ | he
  · obtain rfl := Option.some.inj (he.symm.trans h)
    exact hd
  · obtain rfl := Option.some.inj (he.symm.trans h)
    rfl

end Vhrn.Proxy
