import Mathlib.Data.List.DropRight
import Mathlib.Tactic

/-!
# Byte strings

Octet lists with the ASCII classes and the slice operations that byte-oriented programs use. A
text is the list of its UTF-8 octets: searching, splitting and stripping by an ASCII pattern act
on the octets, so texts and raw buffers share one type. Only trimming looks at scalars above the
ASCII range (`trim`), through the UTF-8 encodings of the white space scalars.

The classification lemmas are decided over the 256 octets (`forall_byte`).
-/

namespace Vhrn

/-- A byte string, or the UTF-8 octets of a text. -/
abbrev Bytes := List UInt8

/-- The octets of an ASCII literal. -/
def ascii (s : String) : Bytes := s.toList.map Char.toUInt8

/-- A property of octets holds once it holds of the 256 numerals. -/
theorem forall_byte {p : UInt8 → Prop} (h : ∀ n < 256, p (UInt8.ofNat n)) (b : UInt8) : p b := by
  have hb := h b.toNat b.toNat_lt
  simpa using hb

namespace Ascii

/-! ## Octet classes -/

def isDigit (b : UInt8) : Bool := 48 ≤ b && b ≤ 57

def isLower (b : UInt8) : Bool := 97 ≤ b && b ≤ 122

def isUpper (b : UInt8) : Bool := 65 ≤ b && b ≤ 90

def isAlpha (b : UInt8) : Bool := isLower b || isUpper b

def isAlnum (b : UInt8) : Bool := isAlpha b || isDigit b

def isHexDigit (b : UInt8) : Bool := isDigit b || (97 ≤ b && b ≤ 102) || (65 ≤ b && b ≤ 70)

def isControl (b : UInt8) : Bool := b < 32 || b == 127

/-- Space, tab, line feed, form feed and carriage return. -/
def isWhitespace (b : UInt8) : Bool := b == 32 || b == 9 || b == 10 || b == 12 || b == 13

def toLower (b : UInt8) : UInt8 := if isUpper b then b + 32 else b

@[simp] theorem toLower_toLower (b : UInt8) : toLower (toLower b) = toLower b := by
  revert b; exact forall_byte (by decide +kernel)

theorem isUpper_toLower (b : UInt8) : isUpper (toLower b) = false := by
  revert b; exact forall_byte (by decide +kernel)

theorem toLower_eq_self {b : UInt8} (h : isUpper b = false) : toLower b = b := by
  simp [toLower, h]

@[simp] theorem isAlnum_toLower (b : UInt8) : isAlnum (toLower b) = isAlnum b := by
  revert b; exact forall_byte (by decide +kernel)

theorem toLower_of_not_upper_iff (b : UInt8) :
    toLower b = b ∨ isAlpha b = true ∧ isAlpha (toLower b) = true := by
  revert b; exact forall_byte (by decide +kernel)

theorem toLower_eq_iff {b c : UInt8} (hc : isAlpha c = false) : toLower b = c ↔ b = c := by
  rcases toLower_of_not_upper_iff b with h | ⟨hb, hl⟩
  · rw [h]
  · constructor <;> rintro rfl <;> simp_all

end Ascii

/-- Every octet is ASCII. -/
def isAscii (s : Bytes) : Bool := s.all (· < 128)

/-- The ASCII letters of a text in lower case. -/
def lower (s : Bytes) : Bytes := s.map Ascii.toLower

/-- Equality up to the case of ASCII letters. -/
def eqIgnoreCase (s t : Bytes) : Bool := lower s == lower t

@[simp] theorem lower_nil : lower [] = [] := rfl

@[simp] theorem lower_cons (b : UInt8) (s : Bytes) : lower (b :: s) = Ascii.toLower b :: lower s :=
  rfl

@[simp] theorem lower_append (s t : Bytes) : lower (s ++ t) = lower s ++ lower t :=
  List.map_append

@[simp] theorem length_lower (s : Bytes) : (lower s).length = s.length := List.length_map _

@[simp] theorem lower_lower (s : Bytes) : lower (lower s) = lower s := by
  simp [lower, Function.comp_def]

theorem lower_eq_nil {s : Bytes} : lower s = [] ↔ s = [] := List.map_eq_nil_iff

theorem lower_eq_self {s : Bytes} (h : ∀ b ∈ s, Ascii.isUpper b = false) : lower s = s :=
  (List.map_congr_left fun b hb => Ascii.toLower_eq_self (h b hb)).trans (List.map_id s)

theorem mem_lower_of_not_alpha {c : UInt8} (hc : Ascii.isAlpha c = false) {s : Bytes} :
    c ∈ lower s ↔ c ∈ s := by
  simp [lower, Ascii.toLower_eq_iff hc]

/-! ## Prefixes and suffixes -/

/-- The text after a prefix. -/
def stripPrefix (p s : Bytes) : Option Bytes :=
  if p.isPrefixOf s then some (s.drop p.length) else none

/-- The text before a suffix. -/
def stripSuffix (p s : Bytes) : Option Bytes :=
  if p.isSuffixOf s then some (s.take (s.length - p.length)) else none

theorem stripPrefix_eq_some {p s r : Bytes} : stripPrefix p s = some r ↔ s = p ++ r := by
  unfold stripPrefix
  constructor
  · intro h
    split at h
    · rename_i hp
      obtain ⟨t, rfl⟩ := List.isPrefixOf_iff_prefix.mp hp
      simpa using h
    · cases h
  · rintro rfl
    rw [if_pos (List.isPrefixOf_iff_prefix.mpr (List.prefix_append p r)), List.drop_left]

theorem stripSuffix_eq_some {p s r : Bytes} : stripSuffix p s = some r ↔ s = r ++ p := by
  unfold stripSuffix
  constructor
  · intro h
    split at h
    · rename_i hp
      obtain ⟨t, rfl⟩ := List.isSuffixOf_iff_suffix.mp hp
      simpa using h
    · cases h
  · rintro rfl
    rw [if_pos (List.isSuffixOf_iff_suffix.mpr (List.suffix_append r p))]
    simp

theorem stripPrefix_append (p r : Bytes) : stripPrefix p (p ++ r) = some r :=
  stripPrefix_eq_some.mpr rfl

theorem stripSuffix_append (r p : Bytes) : stripSuffix p (r ++ p) = some r :=
  stripSuffix_eq_some.mpr rfl

/-- Drop the octets of a class at both ends. -/
def trimBy (p : UInt8 → Bool) (s : Bytes) : Bytes := (s.dropWhile p).rdropWhile p

theorem trimBy_eq_self {p : UInt8 → Bool} {s : Bytes} (hh : ∀ b ∈ s.head?, p b = false)
    (hl : ∀ b ∈ s.getLast?, p b = false) : trimBy p s = s := by
  have h1 : s.dropWhile p = s := by
    cases s with
    | nil => rfl
    | cons b s => simp [List.dropWhile, hh b (by simp)]
  rw [trimBy, h1, List.rdropWhile_eq_self_iff]
  intro hs
  simpa using hl _ (List.getLast?_eq_some_getLast hs)

theorem trimBy_sublist (p : UInt8 → Bool) (s : Bytes) : (trimBy p s).Sublist s :=
  (List.rdropWhile_prefix p _).sublist.trans (List.dropWhile_suffix p).sublist

theorem head?_trimBy {p : UInt8 → Bool} {s : Bytes} : ∀ b ∈ (trimBy p s).head?, p b = false := by
  intro b hb
  obtain ⟨t, ht⟩ := List.rdropWhile_prefix p (s.dropWhile p)
  have hne : (trimBy p s) ≠ [] := by rintro h; simp [h] at hb
  have hb' : b ∈ (s.dropWhile p).head? := by
    rw [← ht, List.head?_append_of_ne_nil (List.rdropWhile p _) hne]
    exact hb
  have hd : s.dropWhile p ≠ [] := by rintro h; simp [h] at hb'
  have hhead := List.head_dropWhile_not p hd
  rw [List.head?_eq_some_head hd, Option.mem_some_iff] at hb'
  rwa [hb'] at hhead

theorem getLast?_trimBy {p : UInt8 → Bool} {s : Bytes} :
    ∀ b ∈ (trimBy p s).getLast?, p b = false := by
  intro b hb
  have hne : (trimBy p s) ≠ [] := by rintro h; simp [h] at hb
  rw [List.getLast?_eq_some_getLast hne, Option.mem_some_iff] at hb
  subst hb
  exact Bool.eq_false_iff.mpr (List.rdropWhile_last_not p (s.dropWhile p) hne)

/-- A text is what is left of it between octets of the class. -/
theorem trimBy_parts (p : UInt8 → Bool) (s : Bytes) : ∃ l r : Bytes, s = l ++ trimBy p s ++ r ∧
    (∀ b ∈ l, p b = true) ∧ ∀ b ∈ r, p b = true := by
  refine ⟨s.takeWhile p, (s.dropWhile p).rtakeWhile p, ?_,
    fun b hb => List.mem_takeWhile_imp hb, fun b hb => List.mem_rtakeWhile_imp hb⟩
  rw [trimBy, List.append_assoc, List.rdropWhile_append_rtakeWhile, List.takeWhile_append_dropWhile]

/-- A text framed by octets of the class around one that starts and ends outside it. -/
theorem trimBy_append {p : UInt8 → Bool} {l r s : Bytes} (hl : ∀ b ∈ l, p b = true)
    (hr : ∀ b ∈ r, p b = true) (hs : trimBy p s = s) : trimBy p (l ++ s ++ r) = s := by
  have hdl : (l ++ s ++ r).dropWhile p = (s ++ r).dropWhile p := by
    rw [List.append_assoc, List.dropWhile_append_of_pos hl]
  by_cases hn : s = []
  · subst hn
    have hd : ([] ++ r).dropWhile p = [] := List.dropWhile_eq_nil_iff.mpr hr
    rw [trimBy, hdl, hd, List.rdropWhile_nil]
  · have hhead := head?_trimBy (p := p) (s := s)
    have hlast := getLast?_trimBy (p := p) (s := s)
    rw [hs] at hhead hlast
    have h1 : (s ++ r).dropWhile p = s ++ r := by
      cases s with
      | nil => exact absurd rfl hn
      | cons b s => simp [hhead b (by simp)]
    rw [trimBy, hdl, h1, List.rdropWhile, List.reverse_append,
      List.dropWhile_append_of_pos (by simpa using hr), ← List.rdropWhile,
      List.rdropWhile_eq_self_iff]
    intro hne
    simpa using hlast _ (List.getLast?_eq_some_getLast hne)

/-! ## Unicode white space

The scalars with the White_Space property, by their UTF-8 encodings. -/

/-- One-octet white space. -/
def isSpace1 (b : UInt8) : Bool := (9 ≤ b && b ≤ 13) || b == 32

/-- U+0085 and U+00A0. -/
def isSpace2 (b c : UInt8) : Bool := b == 0xC2 && (c == 0x85 || c == 0xA0)

/-- U+1680, U+2000 to U+200A, U+2028, U+2029, U+202F, U+205F and U+3000. -/
def isSpace3 (b c d : UInt8) : Bool :=
  (b == 0xE1 && c == 0x9A && d == 0x80) ||
  (b == 0xE2 && c == 0x80 && ((0x80 ≤ d && d ≤ 0x8A) || d == 0xA8 || d == 0xA9 || d == 0xAF)) ||
  (b == 0xE2 && c == 0x81 && d == 0x9F) || (b == 0xE3 && c == 0x80 && d == 0x80)

/-- The text without its leading white space. -/
def trimStart : Bytes → Bytes
  | [] => []
  | b :: s =>
    if isSpace1 b then trimStart s
    else match s with
      | [] => [b]
      | c :: s' =>
        if isSpace2 b c then trimStart s'
        else match s' with
          | [] => [b, c]
          | d :: s'' => if isSpace3 b c d then trimStart s'' else b :: c :: d :: s''

/-- `trimStart` on a reversed text: an encoding is met from its last octet. -/
def trimEndRev : Bytes → Bytes
  | [] => []
  | b :: s =>
    if isSpace1 b then trimEndRev s
    else match s with
      | [] => [b]
      | c :: s' =>
        if isSpace2 c b then trimEndRev s'
        else match s' with
          | [] => [b, c]
          | d :: s'' => if isSpace3 d c b then trimEndRev s'' else b :: c :: d :: s''

/-- The text without leading and trailing white space. -/
def trim (s : Bytes) : Bytes := (trimEndRev (trimStart s).reverse).reverse

/-- A text that starts with an ASCII octet outside white space keeps its start. -/
theorem trimStart_eq_self {s : Bytes} (h : ∀ b ∈ s.head?, b < 128 ∧ isSpace1 b = false) :
    trimStart s = s := by
  have no2 : ∀ b c : UInt8, b < 128 → isSpace2 b c = false := by
    intro b c hb
    have : b ≠ 0xC2 := by rintro rfl; exact absurd hb (by decide)
    simp [isSpace2, this]
  have no3 : ∀ b c d : UInt8, b < 128 → isSpace3 b c d = false := by
    intro b c d hb
    have h1 : b ≠ 0xE1 := by rintro rfl; exact absurd hb (by decide)
    have h2 : b ≠ 0xE2 := by rintro rfl; exact absurd hb (by decide)
    have h3 : b ≠ 0xE3 := by rintro rfl; exact absurd hb (by decide)
    simp [isSpace3, h1, h2, h3]
  match s with
  | [] => rfl
  | [b] => simp [trimStart, (h b (by simp)).2]
  | [b, c] =>
    obtain ⟨hb, hs⟩ := h b (by simp)
    simp [trimStart, hs, no2 b c hb]
  | b :: c :: d :: s =>
    obtain ⟨hb, hs⟩ := h b (by simp)
    simp [trimStart, hs, no2 b c hb, no3 b c d hb]

theorem trimEndRev_eq_self {s : Bytes} (h : ∀ b ∈ s.head?, b < 128 ∧ isSpace1 b = false) :
    trimEndRev s = s := by
  have no2 : ∀ b c : UInt8, b < 128 → isSpace2 c b = false := by
    intro b c hb
    have h1 : b ≠ 0x85 := by rintro rfl; exact absurd hb (by decide)
    have h2 : b ≠ 0xA0 := by rintro rfl; exact absurd hb (by decide)
    simp [isSpace2, h1, h2]
  have no3 : ∀ b c d : UInt8, b < 128 → isSpace3 d c b = false := by
    intro b c d hb
    have h1 : b ≠ 0x80 := by rintro rfl; exact absurd hb (by decide)
    have h2 : ¬ (0x80 : UInt8) ≤ b := UInt8.not_le.mpr hb
    have h3 : b ≠ 0xA8 := by rintro rfl; exact absurd hb (by decide)
    have h4 : b ≠ 0xA9 := by rintro rfl; exact absurd hb (by decide)
    have h5 : b ≠ 0xAF := by rintro rfl; exact absurd hb (by decide)
    have h6 : b ≠ 0x9F := by rintro rfl; exact absurd hb (by decide)
    simp [isSpace3, h1, h2, h3, h4, h5, h6]
  match s with
  | [] => rfl
  | [b] => simp [trimEndRev, (h b (by simp)).2]
  | [b, c] =>
    obtain ⟨hb, hs⟩ := h b (by simp)
    simp [trimEndRev, hs, no2 b c hb]
  | b :: c :: d :: s =>
    obtain ⟨hb, hs⟩ := h b (by simp)
    simp [trimEndRev, hs, no2 b c hb, no3 b c d hb]

/-- A text that starts and ends with ASCII octets outside white space is trimmed already. -/
theorem trim_eq_self {s : Bytes} (hh : ∀ b ∈ s.head?, b < 128 ∧ isSpace1 b = false)
    (hl : ∀ b ∈ s.getLast?, b < 128 ∧ isSpace1 b = false) : trim s = s := by
  rw [trim, trimStart_eq_self hh, trimEndRev_eq_self (by simpa using hl), List.reverse_reverse]

/-! ## UTF-8 -/

/-- A continuation octet. -/
def isContinuation (b : UInt8) : Bool := 0x80 ≤ b && b ≤ 0xBF

/-- The second octet of a three-octet encoding: no overlong forms and no surrogates. -/
def isSecondOf3 (b c : UInt8) : Bool :=
  (b == 0xE0 && 0xA0 ≤ c && c ≤ 0xBF) || (b == 0xED && 0x80 ≤ c && c ≤ 0x9F) ||
  (0xE1 ≤ b && b ≤ 0xEF && b != 0xED && isContinuation c)

/-- The second octet of a four-octet encoding: no overlong forms and nothing above U+10FFFF. -/
def isSecondOf4 (b c : UInt8) : Bool :=
  (b == 0xF0 && 0x90 ≤ c && c ≤ 0xBF) || (b == 0xF4 && 0x80 ≤ c && c ≤ 0x8F) ||
  (0xF1 ≤ b && b ≤ 0xF3 && isContinuation c)

/-- Well-formed UTF-8. -/
def isUtf8 : Bytes → Bool
  | [] => true
  | b :: s =>
    if b < 0x80 then isUtf8 s
    else match s with
      | [] => false
      | c :: s' =>
        if 0xC2 ≤ b && b ≤ 0xDF && isContinuation c then isUtf8 s'
        else match s' with
          | [] => false
          | d :: s'' =>
            if isSecondOf3 b c && isContinuation d then isUtf8 s''
            else match s'' with
              | [] => false
              | e :: s''' =>
                isSecondOf4 b c && isContinuation d && isContinuation e && isUtf8 s'''

/-- The text in a byte buffer, if it holds one. -/
def fromUtf8 (s : Bytes) : Option Bytes := if isUtf8 s then some s else none

theorem isUtf8_of_isAscii {s : Bytes} (h : isAscii s = true) : isUtf8 s = true := by
  induction s with
  | nil => rfl
  | cons b s ih =>
    rw [isAscii, List.all_cons, Bool.and_eq_true, decide_eq_true_eq] at h
    have hb : b < 0x80 := h.1
    rw [isUtf8.eq_def]
    simp only [hb, ↓reduceIte]
    exact ih h.2

theorem fromUtf8_of_isAscii {s : Bytes} (h : isAscii s = true) : fromUtf8 s = some s :=
  if_pos (isUtf8_of_isAscii h)

/-! ## Lines -/

/-- The lines of a text. A line ends at LF and loses a CR right before it; what follows the last
LF is a line when it is not empty. -/
def lines (s : Bytes) : List Bytes :=
  let parts := s.splitOn 10
  parts.dropLast.map (fun l => (stripSuffix [13] l).getD l) ++
    (parts.getLast?.filter (· ≠ [])).toList

end Vhrn
