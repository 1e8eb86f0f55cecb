import Vhrn.Proxy.Server.Http1.Body
import Vhrn.Proxy.Server.Http1.Framing
import Vhrn.Proxy.Server.Response

/-!
# Chunk sizes

The line before a chunk, as it is written and as it is read. The writer fills a buffer of fixed length
from its end (`ChunkPrefix.new`), and what it leaves there is the numeral of the length
(`ChunkPrefix.new_eq`). The reader takes hexadecimal digits with extensions behind them: the grammar is
`ChunkLine`, and `parseChunkSize_iff` says that a line is accepted exactly when it is one and its number
fits.
-/

namespace Vhrn.Proxy

/-! ## Writing -/

/-- A buffer, and where the text in it starts. -/
structure ChunkPrefix where
  bytes : Vector UInt8 chunkPrefixLimit
  start : ℕ

namespace ChunkPrefix

/-- Writes the digits of a length, last first, before a position. There is no position before the
first one. -/
def fill (length : UInt64) (bytes : Vector UInt8 chunkPrefixLimit) :
    (start : ℕ) → start ≤ chunkPrefixLimit → Option ChunkPrefix
  | 0, _ => none
  | start + 1, h =>
    let digit := (length &&& 0xf).toUInt8
    let bytes := bytes.set start (if digit < 10 then 48 + digit else 97 + digit - 10) h
    let length := length >>> 4
    if length = 0 then some ⟨bytes, start⟩ else fill length bytes start (Nat.le_of_succ_le h)

def new (length : UInt64) : Option ChunkPrefix :=
  let start := chunkPrefixLimit - 2
  let bytes := Vector.replicate chunkPrefixLimit 0
  let bytes := (bytes.set start 13 (by decide)).set (start + 1) 10 (by decide)
  fill length bytes start (by decide)

def asBytes (chunk : ChunkPrefix) : Bytes := chunk.bytes.toList.drop chunk.start

theorem digit_eq (length : UInt64) :
    (if (length &&& 0xf).toUInt8 < 10 then 48 + (length &&& 0xf).toUInt8
      else 97 + (length &&& 0xf).toUInt8 - 10) = Numerals.digitByte (length.toNat % 16) := by
  have hmod : (length &&& 0xf).toUInt8 = UInt8.ofNat (length.toNat % 16) := by
    rw [← UInt8.toNat_inj, UInt64.toNat_toUInt8, UInt64.toNat_and, UInt8.toNat_ofNat']
    exact congrArg (· % 2 ^ 8) (Nat.and_two_pow_sub_one_eq_mod length.toNat 4)
  have hall : ∀ d < 16, (if UInt8.ofNat d < 10 then 48 + UInt8.ofNat d else 97 + UInt8.ofNat d - 10) =
      Numerals.digitByte d := by decide
  rw [hmod]
  exact hall _ (Nat.mod_lt _ (by decide))

theorem toNat_shift (length : UInt64) : (length >>> 4).toNat = length.toNat / 16 := by
  rw [UInt64.toNat_shiftRight]
  exact Nat.shiftRight_eq_div_pow length.toNat 4

/-- A digit in front of what the buffer holds from a position on. -/
theorem drop_set (bytes : Vector UInt8 chunkPrefixLimit) {start : ℕ} (h : start < chunkPrefixLimit)
    (digit : UInt8) : (bytes.set start digit h).toList.drop start =
      digit :: bytes.toList.drop (start + 1) := by
  have hlen : start < bytes.toList.length := by simpa using h
  rw [Vector.toList_set, List.set_eq_take_append_cons_drop, if_pos hlen,
    List.drop_left' (List.length_take_of_le hlen.le)]

/-- The first digit. -/
theorem fill_digit {length : UInt64} (hlt : length.toNat < 16)
    (bytes : Vector UInt8 chunkPrefixLimit) {start : ℕ} (h : start + 1 ≤ chunkPrefixLimit) :
    ∃ chunk, fill length bytes (start + 1) h = some chunk ∧
      chunk.asBytes = Numerals.numeral 16 length.toNat ++ bytes.toList.drop (start + 1) := by
  have hzero : length >>> 4 = 0 := by
    rw [← UInt64.toNat_inj, toNat_shift]
    exact Nat.div_eq_of_lt hlt
  rw [fill, if_pos hzero]
  refine ⟨_, rfl, ?_⟩
  rw [asBytes, drop_set, digit_eq, Nat.mod_eq_of_lt hlt, Numerals.numeral_of_lt hlt]
  rfl

/-- **What is filled in is the numeral**, and the position stays above zero while there are digits. -/
theorem fill_eq {length : UInt64} {k : ℕ} (hk : length.toNat < 16 ^ (k + 1))
    (bytes : Vector UInt8 chunkPrefixLimit) {start : ℕ} (hstart : k ≤ start)
    (h : start + 1 ≤ chunkPrefixLimit) : ∃ chunk, fill length bytes (start + 1) h = some chunk ∧
      chunk.asBytes = Numerals.numeral 16 length.toNat ++ bytes.toList.drop (start + 1) := by
  induction k generalizing length bytes start with
  | zero => exact fill_digit hk bytes h
  | succ k ih =>
    rcases Nat.lt_or_ge length.toNat 16 with hlt | hge
    · exact fill_digit hlt bytes h
    · obtain ⟨start, rfl⟩ : ∃ s, start = s + 1 := ⟨start - 1, by omega⟩
      have hzero : length >>> 4 ≠ 0 := by
        rw [Ne, ← UInt64.toNat_inj, toNat_shift]
        exact (Nat.div_pos hge (by decide)).ne'
      have hrest : (length >>> 4).toNat < 16 ^ (k + 1) := by
        rw [toNat_shift]
        exact Nat.div_lt_of_lt_mul (by rwa [← pow_succ'])
      rw [fill, if_neg hzero]
      obtain ⟨chunk, hfill, hbytes⟩ := ih hrest
        (bytes.set (start + 1) (if (length &&& 0xf).toUInt8 < 10 then 48 + (length &&& 0xf).toUInt8
          else 97 + (length &&& 0xf).toUInt8 - 10) h) (Nat.le_of_succ_le_succ hstart)
        (Nat.le_of_succ_le h)
      refine ⟨chunk, hfill, ?_⟩
      rw [hbytes, drop_set, digit_eq, toNat_shift, Numerals.numeral_of_ge (by decide) hge]
      simp

/-- **The prefix of a chunk is the numeral of its length and a line end.** -/
theorem new_eq (length : UInt64) :
    ∃ chunk, new length = some chunk ∧ chunk.asBytes = chunkPrefix length.toNat := by
  obtain ⟨chunk, hfill, hbytes⟩ := @fill_eq length 15 length.toNat_lt
    (((Vector.replicate chunkPrefixLimit 0).set 16 13 (by decide)).set 17 10 (by decide)) 15
    le_rfl (by decide)
  exact ⟨chunk, hfill, hbytes⟩

end ChunkPrefix

/-! ## The grammar of chunk lines -/

/-- A name, with a value or without. -/
inductive ChunkExtension : Bytes → Prop
  | name {name : Bytes} (h : validToken name = true) : ChunkExtension name
  | value {text : Bytes} (h : Parameter text) : ChunkExtension text

/-- Extensions with a semicolon before each. -/
inductive ChunkExtensions : Bytes → Prop
  | nil : ChunkExtensions []
  | cons {before text after rest : Bytes} (hbefore : Ows before) (h : ChunkExtension text)
    (hafter : Ows after) (hs : ChunkExtensions rest) :
    ChunkExtensions (59 :: (before ++ text ++ after ++ rest))

/-- A line that gives the size of a chunk: digits and extensions. -/
inductive ChunkLine (digits : Bytes) : Bytes → Prop
  | mk {extensions : Bytes} (hne : digits ≠ []) (hdigits : digits.all Ascii.isHexDigit = true)
    (h : ChunkExtensions extensions) : ChunkLine digits (digits ++ extensions)

theorem ChunkExtension.bare {text : Bytes} (h : ChunkExtension text) : Bare text := by
  cases h with
  | name h => exact .of_token h
  | value h => exact h.bare

theorem ChunkExtension.piece {text : Bytes} (h : ChunkExtension text) :
    isPieceFrom 59 false false text = true := by
  cases h with
  | name h => exact isPieceFrom_token (.inr (.inl rfl)) h
  | value h => exact h.piece (.inr rfl)

/-- A parameter is taken for an extension with a value. -/
theorem validChunkExtension_of_parameter {text : Bytes} (h : validParameter text = true) :
    validChunkExtension text = true := by
  unfold validParameter at h
  split at h
  · rename_i name value hsplit
    have hne : trimOws text ≠ [] := by
      intro hnil
      rw [hnil] at hsplit
      cases hsplit
    simp only [validChunkExtension, hsplit, h]
    simp [hne]
  · cases h

theorem ChunkExtension.valid {text before after : Bytes} (h : ChunkExtension text)
    (hbefore : Ows before) (hafter : Ows after) :
    validChunkExtension (before ++ text ++ after) = true := by
  cases h with
  | value h => exact validChunkExtension_of_parameter (h.valid hbefore hafter)
  | name h =>
    have hbare := Bare.of_token h
    have hsplit : splitQuoted text 61 = .ok [text] :=
      splitQuoted_eq_ok.mpr (splitQuotedFrom_last (isPieceFrom_token (.inr (.inr rfl)) h))
    have htrim := hbare.trimOws_right Ows.nil
    rw [List.append_nil] at htrim
    simp only [validChunkExtension, hbare.trimOws hbefore hafter, hsplit, htrim, h]
    simp [hbare.ne_nil]

/-- What the parser accepts as an extension is one. -/
theorem exists_chunkExtension {text : Bytes} (h : validChunkExtension text = true) :
    ∃ before extension after, text = before ++ extension ++ after ∧ Ows before ∧ Ows after ∧
      ChunkExtension extension := by
  unfold validChunkExtension at h
  simp only [Bool.and_eq_true] at h
  obtain ⟨-, h⟩ := h
  split at h
  · rename_i name hsplit
    obtain ⟨before, after, htext, hbefore, hafter⟩ := trimOws_parts text
    obtain ⟨left, right, hname, hleft, hright⟩ := trimOws_parts name
    have hone : trimOws text = name := by
      rcases splitQuotedFrom_cases (splitQuoted_eq_ok.mp hsplit) with hone | ⟨_, fields, rest, heq,
        -, hrest⟩
      · exact (List.cons.inj hone).1.symm
      · obtain ⟨-, rfl⟩ := List.cons.inj heq
        rcases splitQuotedFrom_cases hrest with hnil | ⟨_, _, _, hnil, -, -⟩
        · cases hnil
        · cases hnil
    refine ⟨before ++ left, trimOws name, right ++ after, ?_, hbefore.append hleft,
      hright.append hafter, .name h⟩
    rw [htext, hone]
    nth_rewrite 1 [hname]
    simp
  · rename_i name value hsplit
    have hparameter : validParameter text = true := by
      simp only [validParameter, hsplit]
      exact h
    obtain ⟨before, parameter, after, htext, hbefore, hafter, hp⟩ := exists_parameter hparameter
    exact ⟨before, parameter, after, htext, hbefore, hafter, .value hp⟩
  · cases h

/-! ## Reading -/

/-- What a line with extensions is split into. -/
theorem ChunkExtensions.split {extensions : Bytes} (h : ChunkExtensions extensions) :
    ∃ parts : List Bytes, (∀ part ∈ parts, validChunkExtension part = true) ∧
      ∀ piece, isPieceFrom 59 false false piece = true →
        splitQuotedFrom 59 false false (piece ++ extensions) = some (piece :: parts) := by
  induction h with
  | nil =>
    refine ⟨[], fun part hp => absurd hp List.not_mem_nil, fun piece hpiece => ?_⟩
    rw [List.append_nil, splitQuotedFrom_last hpiece]
  | @cons before text after rest hbefore h hafter _ ih =>
    obtain ⟨parts, hparts, hsplit⟩ := ih
    have hall : (59 : UInt8) = 44 ∨ (59 : UInt8) = 59 ∨ (59 : UInt8) = 61 := .inr (.inl rfl)
    have hpart : isPieceFrom 59 false false (before ++ text ++ after) = true := by
      rw [List.append_assoc, isPieceFrom_append (isPieceFrom_ows hall hbefore),
        isPieceFrom_append h.piece]
      exact isPieceFrom_ows hall hafter
    refine ⟨(before ++ text ++ after) :: parts, fun part hp => ?_, fun piece hpiece => ?_⟩
    · rcases List.mem_cons.mp hp with rfl | hp
      · exact h.valid hbefore hafter
      · exact hparts part hp
    · rw [splitQuotedFrom_piece (by decide) hpiece, hsplit _ hpart]
      rfl

/-- Accepted extensions behind a semicolon. -/
theorem chunkExtensions_of_split {parts : List Bytes} {rest : Bytes}
    (hsplit : splitQuotedFrom 59 false false rest = some parts)
    (hparts : ∀ part ∈ parts, validChunkExtension part = true) : ChunkExtensions (59 :: rest) := by
  induction parts generalizing rest with
  | nil =>
    rcases splitQuotedFrom_cases hsplit with hone | ⟨_, _, _, hmore, -, -⟩
    · cases hone
    · cases hmore
  | cons part parts ih =>
    obtain ⟨before, extension, after, hpart, hbefore, hafter, hextension⟩ :=
      exists_chunkExtension (hparts part List.mem_cons_self)
    rcases splitQuotedFrom_cases hsplit with hone | ⟨first, parts', rest', heq, hrest, hsplit'⟩
    · obtain ⟨rfl, -⟩ := List.cons.inj hone
      have hcons := ChunkExtensions.cons hbefore hextension hafter .nil
      rwa [List.append_nil, ← hpart] at hcons
    · obtain ⟨rfl, rfl⟩ := List.cons.inj heq
      have hcons := ChunkExtensions.cons hbefore hextension hafter
        (ih hsplit' fun p hp => hparts p (List.mem_cons_of_mem _ hp))
      rwa [← hpart, ← hrest] at hcons

/-- Hexadecimal digits are a part. -/
theorem isPieceFrom_digits {digits : Bytes} (h : digits.all Ascii.isHexDigit = true) :
    isPieceFrom 59 false false digits = true := by
  have hb (b : UInt8) : Ascii.isHexDigit b = true → b ≠ 34 ∧ b ≠ 59 := by
    revert b; exact forall_byte (by decide +kernel)
  exact isPieceFrom_plain fun b hd => hb b (List.all_eq_true.mp h b hd)

theorem checkedValue_word (digits : Bytes) : Numerals.checkedValue 16 (2 ^ 64 - 1) digits =
    if Numerals.value 16 digits < 2 ^ 64 then some (Numerals.value 16 digits) else none := by
  rw [Numerals.checkedValue_eq (by decide)]
  exact if_congr (by omega) rfl rfl

/-- The number of a chunk line, when it fits. -/
theorem parseChunkSize_line {digits line : Bytes} (h : ChunkLine digits line) :
    parseChunkSize line = if Numerals.value 16 digits < 2 ^ 64 then
      .ok (Numerals.value 16 digits) else .error .badRequest := by
  obtain ⟨hne, hdigits, h⟩ := h
  rename_i extensions
  obtain ⟨parts, hparts, hsplit⟩ := h.split
  have hany : parts.any (!validChunkExtension ·) = false := by
    rw [List.any_eq_false]
    intro part hp
    simp [hparts part hp]
  have hfields : splitQuoted (digits ++ extensions) 59 = .ok (digits :: parts) :=
    splitQuoted_eq_ok.mpr (hsplit digits (isPieceFrom_digits hdigits))
  have hempty : digits.isEmpty = false := by simpa using hne
  unfold parseChunkSize
  rw [hfields]
  simp only [bind, Except.bind, List.headD_cons, List.tail_cons, hempty, hdigits, hany,
    checkedValue_word, Bool.not_true, Bool.or_false, Bool.false_eq_true, ↓reduceIte]
  split
  · rename_i size hsize
    split at hsize
    · rename_i hlt
      rw [if_pos hlt, ← Option.some.inj hsize]
      rfl
    · cases hsize
  · rename_i hnone
    split at hnone
    · cases hnone
    · rename_i hge
      rw [if_neg hge]
      rfl

/-- What is accepted is a chunk line. -/
theorem chunkLine_of_parse {line : Bytes} {n : ℕ} (h : parseChunkSize line = .ok n) :
    ∃ digits, ChunkLine digits line := by
  unfold parseChunkSize at h
  cases hsplit : splitQuoted line 59 with
  | error e =>
    rw [hsplit] at h
    cases h
  | ok parts =>
    simp only [hsplit, bind, Except.bind] at h
    split at h
    · cases h
    · rename_i hsize
      split at h
      · cases h
      · rename_i hextensions
        rw [Bool.not_eq_true, Bool.or_eq_false_iff] at hsize
        rw [List.any_eq_true] at hextensions
        have hvalid (part : Bytes) (hp : part ∈ parts.tail) : validChunkExtension part = true := by
          by_contra hnot
          exact hextensions ⟨part, hp, by simpa using hnot⟩
        rcases splitQuotedFrom_cases (splitQuoted_eq_ok.mp hsplit) with rfl | ⟨first, fields, rest,
          rfl, rfl, hrest⟩
        · have hline : ChunkLine line (line ++ []) :=
            .mk (by simpa using hsize.1) (by simpa using hsize.2) .nil
          rw [List.append_nil] at hline
          exact ⟨line, hline⟩
        · exact ⟨first, .mk (by simpa using hsize.1) (by simpa using hsize.2)
            (chunkExtensions_of_split hrest hvalid)⟩

/-- **A line is accepted exactly when it is a chunk line whose number fits**, as that number. -/
theorem parseChunkSize_iff {line : Bytes} {n : ℕ} : parseChunkSize line = .ok n ↔
    ∃ digits, ChunkLine digits line ∧ Numerals.value 16 digits = n ∧ n < 2 ^ 64 := by
  constructor
  · intro h
    obtain ⟨digits, hline⟩ := chunkLine_of_parse h
    rw [parseChunkSize_line hline] at h
    split at h
    · rename_i hlt
      obtain rfl := Except.ok.inj h
      exact ⟨digits, hline, rfl, hlt⟩
    · cases h
  · rintro ⟨digits, hline, rfl, hlt⟩
    rw [parseChunkSize_line hline, if_pos hlt]

/-! ## Both ways -/

/-- The shortest spelling of a number in lower-case hexadecimal digits. -/
structure ShortestHex (n : ℕ) (digits : Bytes) : Prop where
  ne_nil : digits ≠ []
  digit : digits.all Ascii.isHexDigit = true
  lower : digits.all (!Ascii.isUpper ·) = true
  value : Numerals.value 16 digits = n
  shortest : ∀ other : Bytes, other ≠ [] → other.all Ascii.isHexDigit = true →
    Numerals.value 16 other = n → digits.length ≤ other.length

theorem shortestHex_numeral (n : ℕ) : ShortestHex n (Numerals.numeral 16 n) where
  ne_nil := Numerals.numeral_ne_nil n
  digit := List.all_eq_true.mpr fun _ hb => Numerals.isHexDigit_of_mem_numeral hb
  lower := by
    refine List.all_eq_true.mpr fun b hb => ?_
    obtain ⟨d, hd, rfl⟩ := Numerals.mem_numeral (by decide) (by decide) hb
    rw [Numerals.isUpper_digitByte d hd]
    rfl
  value := Numerals.value_numeral (by decide) (by decide) n
  shortest other hne _ hvalue := by
    refine Numerals.length_numeral_le (by decide) (List.length_pos_iff.mpr hne) ?_
    rw [← hvalue]
    exact Numerals.value_lt fun b _ => Numerals.digitValue_lt b

/-- The writer and the reader of chunk sizes. -/
structure ChunkSizeLaw : Prop where
  /-- The writer never leaves its buffer, and writes the shortest spelling, which the reader reads as
  the length. -/
  written : ∀ length : UInt64, ∃ chunk digits, ChunkPrefix.new length = some chunk ∧
    chunk.asBytes = digits ++ crlf ∧ ShortestHex length.toNat digits ∧
      parseChunkSize digits = .ok length.toNat
  /-- The reader returns the number of the digits of a well-formed line when it fits a word. -/
  accepts : ∀ {digits line}, ChunkLine digits line → Numerals.value 16 digits < 2 ^ 64 →
    parseChunkSize line = .ok (Numerals.value 16 digits)
  /-- It rejects every other line. -/
  rejects : ∀ {line}, (∀ digits, ChunkLine digits line → 2 ^ 64 ≤ Numerals.value 16 digits) →
    ∃ error, parseChunkSize line = .error error

/-- **The writer and the reader of chunk sizes are inverse.** -/
theorem chunk_sizes_inverse : ChunkSizeLaw where
  written length := by
    obtain ⟨chunk, hnew, hbytes⟩ := ChunkPrefix.new_eq length
    have hdigits := shortestHex_numeral length.toNat
    have hline := ChunkLine.mk hdigits.ne_nil hdigits.digit .nil
    rw [List.append_nil] at hline
    refine ⟨chunk, _, hnew, hbytes, hdigits, ?_⟩
    exact parseChunkSize_iff.mpr ⟨_, hline, hdigits.value, length.toNat_lt⟩
  accepts hline hlt := parseChunkSize_iff.mpr ⟨_, hline, rfl, hlt⟩
  rejects h := by
    rename_i line
    cases hparse : parseChunkSize line with
    | error error => exact ⟨error, rfl⟩
    | ok n =>
      obtain ⟨digits, hline, rfl, hlt⟩ := parseChunkSize_iff.mp hparse
      exact absurd (h digits hline) (not_le.mpr hlt)

end Vhrn.Proxy
