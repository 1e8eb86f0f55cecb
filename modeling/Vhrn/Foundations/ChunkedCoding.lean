import Vhrn.Foundations.HttpCrate
import Vhrn.Foundations.Numerals
import Vhrn.Foundations.Split

/-!
# The chunked transfer coding

A body as a sequence of chunks, each after its length, and fields after the last of them. `encode` writes
pieces of data and fields, `decode` is a decoder without limits and without extensions, and
`decode_encode` says that it gets the data and the fields back, and where the text ends.
-/

namespace Vhrn.ChunkedCoding

abbrev Field := Bytes × Bytes

/-! ## Encoding -/

def chunk (piece : Bytes) : Bytes :=
  Numerals.numeral 16 piece.length ++ [13, 10] ++ piece ++ [13, 10]

def fieldLine (field : Field) : Bytes := field.1 ++ [58, 32] ++ field.2 ++ [13, 10]

/-- The chunks of some pieces of data. -/
def chunks (pieces : List Bytes) : Bytes := (pieces.map chunk).flatten

/-- The end of a text: the last chunk, which is empty, and the fields. -/
def trailer (fields : List Field) : Bytes :=
  48 :: [13, 10] ++ (fields.map fieldLine).flatten ++ [13, 10]

def encode (pieces : List Bytes) (fields : List Field) : Bytes := chunks pieces ++ trailer fields

/-! ## Decoding -/

/-- A line and what follows it. -/
def takeLine (text : Bytes) : Option (Bytes × Bytes) := splitOnceSeq [13, 10] text

def isSpace (b : UInt8) : Bool := b == 32 || b == 9

def parseField (line : Bytes) : Option Field :=
  match splitOnce 58 line with
  | some (name, value) => if validToken name then some (name, trimBy isSpace value) else none
  | none => none

theorem length_of_takeLine {text line rest : Bytes} (h : takeLine text = some (line, rest)) :
    rest.length < text.length := by
  rw [splitOnceSeq_eq_some h, List.length_append, List.length_append, List.length_cons]
  omega

/-- The fields up to an empty line, and what follows it. -/
def decodeFields (text : Bytes) : Option (List Field × Bytes) :=
  match _h : takeLine text with
  | none => none
  | some (line, rest) =>
    if line.isEmpty then some ([], rest)
    else match parseField line with
      | none => none
      | some field => (decodeFields rest).map fun (fields, last) => (field :: fields, last)
termination_by text.length
decreasing_by exact length_of_takeLine _h

/-- The data and the fields of the text at the start, and what follows it. -/
def decode (text : Bytes) : Option (Bytes × List Field × Bytes) :=
  match _h : takeLine text with
  | none => none
  | some (line, rest) =>
    if line.isEmpty || !line.all Ascii.isHexDigit then none
    else
      let size := Numerals.value 16 line
      if size = 0 then (decodeFields rest).map fun (fields, last) => ([], fields, last)
      else match _hdata : stripPrefix [13, 10] (rest.drop size) with
        | none => none
        | some rest' =>
          (decode rest').map fun (data, fields, last) => (rest.take size ++ data, fields, last)
termination_by text.length
decreasing_by
  have hlt := length_of_takeLine _h
  have hdrop := congrArg List.length (stripPrefix_eq_some.mp _hdata)
  simp only [List.length_drop, List.length_append] at hdrop
  omega

/-! ## Round trip -/

variable {line text rest data last : Bytes} {piece : Bytes} {fields : List Field} {field : Field}

theorem takeLine_append (h : 13 ∉ line) (rest : Bytes) :
    takeLine (line ++ [13, 10] ++ rest) = some (line, rest) := splitOnceSeq_of_not_mem h

/-- A field that is a line of its own and has no space around its value. -/
structure Plain (field : Field) : Prop where
  token : validToken field.1 = true
  oneLine : 13 ∉ field.2
  trimmed : trimBy isSpace field.2 = field.2

theorem not_mem_of_token (h : validToken line = true) : 13 ∉ line ∧ 58 ∉ line := by
  rw [validToken, Bool.and_eq_true, List.all_eq_true] at h
  exact ⟨fun hmem => absurd (h.2 13 hmem) (by decide), fun hmem => absurd (h.2 58 hmem) (by decide)⟩

theorem parseField_line (h : Plain field) :
    parseField (field.1 ++ [58, 32] ++ field.2) = some field := by
  have hsplit : splitOnce 58 (field.1 ++ [58, 32] ++ field.2) = some (field.1, 32 :: field.2) := by
    rw [splitOnce_eq_some]
    exact ⟨by simp, (not_mem_of_token h.token).2⟩
  have htrim : trimBy isSpace ([32] ++ field.2 ++ []) = field.2 :=
    trimBy_append (List.forall_mem_singleton.mpr rfl) (by simp) h.trimmed
  rw [List.append_nil] at htrim
  rw [parseField, hsplit]
  simp only [h.token, if_true]
  rw [show 32 :: field.2 = [32] ++ field.2 from rfl, htrim]

theorem decodeFields_cons (h : Plain field) (text : Bytes) :
    decodeFields (fieldLine field ++ text) =
      (decodeFields text).map fun (fields, last) => (field :: fields, last) := by
  have hmem : 13 ∉ field.1 ++ [58, 32] ++ field.2 := by
    simp only [List.mem_append, not_or]
    exact ⟨⟨(not_mem_of_token h.token).1, by decide⟩, h.oneLine⟩
  have hline := takeLine_append hmem text
  rw [decodeFields]
  unfold fieldLine
  split
  · rename_i hnone
    rw [hline] at hnone
    cases hnone
  · rename_i hsome
    rw [hline] at hsome
    obtain ⟨rfl, rfl⟩ := Prod.mk.inj (Option.some.inj hsome)
    rw [if_neg (by simp), parseField_line h]

/-- **The fields come back.** -/
theorem decodeFields_encode (h : ∀ field ∈ fields, Plain field) (rest : Bytes) :
    decodeFields ((fields.map fieldLine).flatten ++ [13, 10] ++ rest) = some (fields, rest) := by
  induction fields with
  | nil =>
    have hline := takeLine_append ((List.not_mem_nil : (13 : UInt8) ∉ [])) rest
    rw [decodeFields]
    split
    · rename_i hnone
      rw [List.map_nil, List.flatten_nil, hline] at hnone
      cases hnone
    · rename_i hsome
      rw [List.map_nil, List.flatten_nil, hline] at hsome
      obtain ⟨rfl, rfl⟩ := Prod.mk.inj (Option.some.inj hsome)
      rfl
  | cons field fields ih =>
    rw [List.map_cons, List.flatten_cons, List.append_assoc, List.append_assoc,
      decodeFields_cons (h field List.mem_cons_self), ← List.append_assoc,
      ih fun f hf => h f (List.mem_cons_of_mem _ hf)]
    rfl

theorem decode_takeLine (h : takeLine text = some (line, rest)) : decode text =
    if line.isEmpty || !line.all Ascii.isHexDigit then none
    else if Numerals.value 16 line = 0 then
      (decodeFields rest).map fun (fields, last) => ([], fields, last)
    else (stripPrefix [13, 10] (rest.drop (Numerals.value 16 line))).bind fun rest' =>
      (decode rest').map fun (data, fields, last) =>
        (rest.take (Numerals.value 16 line) ++ data, fields, last) := by
  rw [decode]
  split
  · rename_i hnone
    rw [hnone] at h
    cases h
  · rename_i hsome
    rw [hsome] at h
    obtain ⟨rfl, rfl⟩ := Prod.mk.inj (Option.some.inj h)
    simp only
    split
    · rfl
    · split
      · rfl
      · split
        · rename_i hstrip
          rw [hstrip]
          rfl
        · rename_i hstrip
          rw [hstrip]
          rfl

theorem decode_line (h13 : 13 ∉ line) (hne : line ≠ []) (hhex : line.all Ascii.isHexDigit = true)
    (rest : Bytes) : decode (line ++ [13, 10] ++ rest) =
      if Numerals.value 16 line = 0 then
        (decodeFields rest).map fun (fields, last) => ([], fields, last)
      else (stripPrefix [13, 10] (rest.drop (Numerals.value 16 line))).bind fun rest' =>
        (decode rest').map fun (data, fields, last) =>
          (rest.take (Numerals.value 16 line) ++ data, fields, last) := by
  rw [decode_takeLine (takeLine_append h13 rest), if_neg (by simp [hne, hhex])]

theorem decode_chunk (h : piece ≠ []) (text : Bytes) : decode (chunk piece ++ text) =
    (decode text).map fun (data, fields, last) => (piece ++ data, fields, last) := by
  have hvalue : Numerals.value 16 (Numerals.numeral 16 piece.length) = piece.length :=
    Numerals.value_numeral (by decide) (by decide) _
  have hlength : piece.length ≠ 0 := fun hzero => h (List.length_eq_zero_iff.mp hzero)
  have hhex : ∀ b ∈ Numerals.numeral 16 piece.length, Ascii.isHexDigit b = true :=
    fun b hb => Numerals.isHexDigit_of_mem_numeral hb
  have hline := decode_line (fun hmem => absurd (hhex 13 hmem) (by decide))
    (Numerals.numeral_ne_nil piece.length) (List.all_eq_true.mpr hhex)
    (piece ++ ([13, 10] ++ text))
  rw [hvalue, if_neg hlength, List.drop_left, List.take_left, stripPrefix_append] at hline
  rw [show chunk piece ++ text = Numerals.numeral 16 piece.length ++ [13, 10] ++
    (piece ++ ([13, 10] ++ text)) by simp [chunk], hline]
  rfl

/-- **The data and the fields of a text come back**, and the text ends where it was ended. -/
theorem decode_encode {pieces : List Bytes} (h : ∀ piece ∈ pieces, piece ≠ [])
    (hfields : ∀ field ∈ fields, Plain field) (rest : Bytes) :
    decode (encode pieces fields ++ rest) = some (pieces.flatten, fields, rest) := by
  unfold encode chunks
  induction pieces with
  | nil =>
    have hline := @decode_line [48] (by decide) (by decide) (by decide)
      ((fields.map fieldLine).flatten ++ [13, 10] ++ rest)
    rw [if_pos (by decide), decodeFields_encode hfields] at hline
    rw [show ([].map chunk).flatten ++ trailer fields ++ rest = [48] ++ [13, 10] ++
      ((fields.map fieldLine).flatten ++ [13, 10] ++ rest) by simp [trailer], hline]
    rfl
  | cons piece pieces ih =>
    rw [List.map_cons, List.flatten_cons, List.append_assoc, List.append_assoc,
      decode_chunk (h piece List.mem_cons_self), ← List.append_assoc,
      ih fun p hp => h p (List.mem_cons_of_mem _ hp)]
    rfl

/-! ## Texts that go on -/

theorem takeLine_more (h : takeLine text = some (line, rest)) (more : Bytes) :
    takeLine (text ++ more) = some (line, rest ++ more) := splitOnceSeq_append h more

theorem decodeFields_append (h : decodeFields text = some (fields, last)) (more : Bytes) :
    decodeFields (text ++ more) = some (fields, last ++ more) := by
  fun_induction decodeFields text generalizing fields with
  | case1 text hline => cases h
  | case2 text line rest hline hempty =>
    obtain ⟨rfl, rfl⟩ := Prod.mk.inj (Option.some.inj h)
    rw [decodeFields]
    split
    · rename_i hnone
      rw [takeLine_more hline] at hnone
      cases hnone
    · rename_i hsome
      rw [takeLine_more hline] at hsome
      obtain ⟨rfl, rfl⟩ := Prod.mk.inj (Option.some.inj hsome)
      rw [if_pos hempty]
  | case3 text line rest hline hempty hfield => cases h
  | case4 text line rest hline hempty field hfield ih =>
    obtain ⟨⟨later, last'⟩, hlater, heq⟩ := Option.map_eq_some_iff.mp h
    obtain ⟨rfl, rfl⟩ := Prod.mk.inj heq
    rw [decodeFields]
    split
    · rename_i hnone
      rw [takeLine_more hline] at hnone
      cases hnone
    · rename_i hsome
      rw [takeLine_more hline] at hsome
      obtain ⟨rfl, rfl⟩ := Prod.mk.inj (Option.some.inj hsome)
      rw [if_neg hempty, hfield]
      simp only [ih hlater, Option.map_some]

/-- **A text ends where it ends, whatever follows.** -/
theorem decode_append (h : decode text = some (data, fields, last)) (more : Bytes) :
    decode (text ++ more) = some (data, fields, last ++ more) := by
  fun_induction decode text generalizing data with
  | case1 text hline => cases h
  | case2 text line rest hline hbad => cases h
  | case3 text line rest hline hbad size =>
    rename_i hzero
    obtain ⟨⟨fields', last'⟩, hfields, heq⟩ := Option.map_eq_some_iff.mp h
    cases heq
    rw [decode_takeLine (takeLine_more hline more), if_neg hbad, if_pos hzero,
      decodeFields_append hfields more]
    rfl
  | case4 text line rest hline hbad => cases h
  | case5 text line rest hline hbad size hzero rest' hstrip =>
    rename_i ih
    obtain ⟨⟨data', fields', last'⟩, hdata, heq⟩ := Option.map_eq_some_iff.mp h
    cases heq
    have hdrop := stripPrefix_eq_some.mp hstrip
    have hlength := congrArg List.length hdrop
    rw [List.length_drop, List.length_append, List.length_cons, List.length_cons] at hlength
    have hle : Numerals.value 16 line ≤ rest.length := by omega
    have hmore : stripPrefix [13, 10] ((rest ++ more).drop (Numerals.value 16 line)) =
        some (rest' ++ more) := by
      rw [List.drop_append_of_le_length hle, hdrop, List.append_assoc]
      exact stripPrefix_append _ _
    rw [decode_takeLine (takeLine_more hline more), if_neg hbad, if_neg hzero, hmore,
      List.take_append_of_le_length hle]
    simp only [Option.bind_some, ih hdata, Option.map_some]
    rfl

end Vhrn.ChunkedCoding
