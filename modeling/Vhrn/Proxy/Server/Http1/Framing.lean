import Vhrn.Foundations.Keeps
import Vhrn.Proxy.Server.Http1.Head

/-!
# Message framing

What the framing fields of a request must spell. A transfer coding is a name with parameters, whose values
may be quoted strings, and a list of codings is written with commas that no quoted string holds
(`CodingList`). The parser splits before it looks at the parts, at delimiters outside quoted strings, and
`splitQuotedFrom_cases` and `splitQuotedFrom_piece` say that it splits where the grammar does. `framing_iff`
is the grammar of every framing that is accepted.
-/

namespace Vhrn.Proxy

/-! ## The grammar of transfer codings -/

/-- Optional white space. -/
def Ows (text : Bytes) : Prop := ∀ byte ∈ text, isOws byte = true

/-- The inside of a quoted string. -/
inductive QuotedText : Bytes → Prop
  | nil : QuotedText []
  | octet {byte : UInt8} {rest : Bytes} (hquote : byte ≠ 34) (hescape : byte ≠ 92)
    (hbyte : quotedOctet byte = true) (h : QuotedText rest) : QuotedText (byte :: rest)
  | escaped {byte : UInt8} {rest : Bytes} (hbyte : quotedOctet byte = true) (h : QuotedText rest) :
    QuotedText (92 :: byte :: rest)

/-- A token or a quoted string. -/
inductive ParameterValue : Bytes → Prop
  | token {value : Bytes} (h : validToken value = true) : ParameterValue value
  | quoted {inside : Bytes} (h : QuotedText inside) : ParameterValue (34 :: inside ++ [34])

/-- `name = value`. -/
inductive Parameter : Bytes → Prop
  | mk {name before after value : Bytes} (hname : validToken name = true) (hbefore : Ows before)
    (hafter : Ows after) (hvalue : ParameterValue value) :
    Parameter (name ++ before ++ 61 :: (after ++ value))

structure TransferCoding where
  name : Bytes
  parameters : List Bytes

/-- The texts of a coding. -/
inductive CodingText (name : Bytes) : List Bytes → Bytes → Prop
  | name (h : validToken name = true) : CodingText name [] name
  | parameter {parameters : List Bytes} {text before after parameter : Bytes}
    (h : CodingText name parameters text) (hbefore : Ows before) (hafter : Ows after)
    (hparameter : Parameter parameter) :
    CodingText name (parameters ++ [parameter]) (text ++ before ++ 59 :: (after ++ parameter))

/-- A member of a list of codings. -/
inductive CodingMember (coding : TransferCoding) : Bytes → Prop
  | mk {before text after : Bytes} (hbefore : Ows before)
    (h : CodingText coding.name coding.parameters text) (hafter : Ows after) :
    CodingMember coding (before ++ text ++ after)

/-- The texts of a list of codings. -/
inductive CodingList : List TransferCoding → Bytes → Prop
  | single {coding : TransferCoding} {text : Bytes} (h : CodingMember coding text) :
    CodingList [coding] text
  | cons {coding : TransferCoding} {codings : List TransferCoding} {text rest : Bytes}
    (h : CodingMember coding text) (hs : CodingList codings rest) :
    CodingList (coding :: codings) (text ++ 44 :: rest)

/-! ## Pieces -/

/-- A text that ends outside quoted strings and has no delimiter there. -/
def isPieceFrom (delimiter : UInt8) : (quoted escaped : Bool) → Bytes → Bool
  | quoted, escaped, [] => !quoted && !escaped
  | quoted, true, _ :: rest => isPieceFrom delimiter quoted false rest
  | quoted, false, byte :: rest =>
    if quoted && byte == 92 then isPieceFrom delimiter quoted true rest
    else if byte == 34 then isPieceFrom delimiter (!quoted) false rest
    else !(byte == delimiter && !quoted) && isPieceFrom delimiter quoted false rest

section

variable {delimiter : UInt8} {quoted escaped : Bool} {text rest : Bytes}

theorem isPieceFrom_append (h : isPieceFrom delimiter quoted escaped text = true) (rest : Bytes) :
    isPieceFrom delimiter quoted escaped (text ++ rest) = isPieceFrom delimiter false false rest := by
  induction text generalizing quoted escaped with
  | nil =>
    rw [isPieceFrom, Bool.and_eq_true, Bool.not_eq_true', Bool.not_eq_true'] at h
    rw [h.1, h.2, List.nil_append]
  | cons byte text ih =>
    rw [List.cons_append]
    cases escaped with
    | true =>
      rw [isPieceFrom] at h ⊢
      exact ih h
    | false =>
      rw [isPieceFrom] at h ⊢
      split
      · rename_i hescape
        rw [if_pos hescape] at h
        exact ih h
      · rename_i hescape
        rw [if_neg hescape] at h
        split
        · rename_i hquote
          rw [if_pos hquote] at h
          exact ih h
        · rename_i hquote
          rw [if_neg hquote, Bool.and_eq_true] at h
          rw [h.1, Bool.true_and]
          exact ih h.2

theorem isPieceFrom_plain (h : ∀ byte ∈ text, byte ≠ 34 ∧ byte ≠ delimiter) :
    isPieceFrom delimiter false false text = true := by
  induction text with
  | nil => rfl
  | cons byte text ih =>
    obtain ⟨hquote, hdelimiter⟩ := h byte List.mem_cons_self
    rw [isPieceFrom, ih fun byte hb => h byte (List.mem_cons_of_mem _ hb)]
    simp [hquote, hdelimiter]

theorem isPieceFrom_quoted (h : QuotedText text) :
    isPieceFrom delimiter true false (text ++ [34]) = true := by
  induction h with
  | nil => rfl
  | octet hquote hescape _ _ ih =>
    rw [List.cons_append, isPieceFrom, ih]
    simp [hquote, hescape]
  | escaped _ _ ih => exact ih

/-- A piece before a delimiter is split off. -/
theorem splitQuotedFrom_piece (hdelimiter : delimiter ≠ 34)
    (h : isPieceFrom delimiter quoted escaped text = true) (rest : Bytes) :
    splitQuotedFrom delimiter quoted escaped (text ++ delimiter :: rest) =
      (splitQuotedFrom delimiter false false rest).map (text :: ·) := by
  induction text generalizing quoted escaped with
  | nil =>
    rw [isPieceFrom, Bool.and_eq_true, Bool.not_eq_true', Bool.not_eq_true'] at h
    rw [h.1, h.2, List.nil_append, splitQuotedFrom]
    simp [hdelimiter]
  | cons byte text ih =>
    have hpush (result : Option (List Bytes)) :
        (result.map (text :: ·)).map (List.modifyHead (byte :: ·)) = result.map ((byte :: text) :: ·) := by
      cases result <;> rfl
    rw [List.cons_append]
    cases escaped with
    | true =>
      rw [isPieceFrom] at h
      rw [splitQuotedFrom, ih h, hpush]
    | false =>
      rw [isPieceFrom] at h
      rw [splitQuotedFrom]
      split
      · rename_i hescape
        rw [if_pos hescape] at h
        rw [ih h, hpush]
      · rename_i hescape
        rw [if_neg hescape] at h
        split
        · rename_i hquote
          rw [if_pos hquote] at h
          rw [ih h, hpush]
        · rename_i hquote
          rw [if_neg hquote, Bool.and_eq_true, Bool.not_eq_true'] at h
          rw [if_neg (by rw [h.1]; exact Bool.false_ne_true), ih h.2, hpush]

/-- A piece is one part. -/
theorem splitQuotedFrom_last (h : isPieceFrom delimiter quoted escaped text = true) :
    splitQuotedFrom delimiter quoted escaped text = some [text] := by
  induction text generalizing quoted escaped with
  | nil =>
    rw [isPieceFrom, Bool.and_eq_true, Bool.not_eq_true', Bool.not_eq_true'] at h
    rw [h.1, h.2]
    rfl
  | cons byte text ih =>
    cases escaped with
    | true =>
      rw [isPieceFrom] at h
      rw [splitQuotedFrom, ih h]
      rfl
    | false =>
      rw [isPieceFrom] at h
      rw [splitQuotedFrom]
      split
      · rename_i hescape
        rw [if_pos hescape] at h
        rw [ih h]
        rfl
      · rename_i hescape
        rw [if_neg hescape] at h
        split
        · rename_i hquote
          rw [if_pos hquote] at h
          rw [ih h]
          rfl
        · rename_i hquote
          rw [if_neg hquote, Bool.and_eq_true, Bool.not_eq_true'] at h
          rw [if_neg (by rw [h.1]; exact Bool.false_ne_true), ih h.2]
          rfl

/-- The first part, and what the rest is split into. -/
theorem splitQuotedFrom_cases {fields : List Bytes}
    (h : splitQuotedFrom delimiter quoted escaped text = some fields) :
    fields = [text] ∨ ∃ first fields' rest, fields = first :: fields' ∧
      text = first ++ delimiter :: rest ∧ splitQuotedFrom delimiter false false rest = some fields' := by
  have hpush {byte : UInt8} {quoted' escaped' : Bool} {text : Bytes} {fields : List Bytes}
      (ih : ∀ {fields}, splitQuotedFrom delimiter quoted' escaped' text = some fields →
        fields = [text] ∨ ∃ first fields' rest, fields = first :: fields' ∧
          text = first ++ delimiter :: rest ∧
          splitQuotedFrom delimiter false false rest = some fields')
      (h : (splitQuotedFrom delimiter quoted' escaped' text).map (List.modifyHead (byte :: ·)) =
        some fields) :
      fields = [byte :: text] ∨ ∃ first fields' rest, fields = first :: fields' ∧
        byte :: text = first ++ delimiter :: rest ∧
        splitQuotedFrom delimiter false false rest = some fields' := by
    obtain ⟨fields', hsplit, rfl⟩ := Option.map_eq_some_iff.mp h
    rcases ih hsplit with rfl | ⟨first, fields', rest, rfl, rfl, hrest⟩
    · exact .inl rfl
    · exact .inr ⟨byte :: first, fields', rest, rfl, rfl, hrest⟩
  induction text generalizing quoted escaped fields with
  | nil =>
    rw [splitQuotedFrom] at h
    split at h
    · cases h
    · exact .inl (Option.some.inj h).symm
  | cons byte text ih =>
    cases escaped with
    | true => exact hpush ih h
    | false =>
      rw [splitQuotedFrom] at h
      split at h
      · exact hpush ih h
      · split at h
        · exact hpush ih h
        · split at h
          · rename_i hdelimiter
            rw [Bool.and_eq_true, beq_iff_eq, Bool.not_eq_true'] at hdelimiter
            obtain ⟨rfl, rfl⟩ := hdelimiter
            obtain ⟨fields', hrest, rfl⟩ := Option.map_eq_some_iff.mp h
            exact .inr ⟨[], fields', text, rfl, rfl, hrest⟩
          · exact hpush ih h

end

/-! ## White space -/

theorem isOws_ne (byte : UInt8) :
    isOws byte = true → byte ≠ 34 ∧ byte ≠ 44 ∧ byte ≠ 59 ∧ byte ≠ 61 := by
  revert byte; exact forall_byte (by decide +kernel)

theorem tokenOctet_ne (byte : UInt8) : tokenOctet byte = true →
    isOws byte = false ∧ byte ≠ 34 ∧ byte ≠ 44 ∧ byte ≠ 59 ∧ byte ≠ 61 := by
  revert byte; exact forall_byte (by decide +kernel)

theorem validToken_octet {text : Bytes} (h : validToken text = true) {byte : UInt8}
    (hb : byte ∈ text) : tokenOctet byte = true := by
  rw [validToken, Bool.and_eq_true] at h
  exact List.all_eq_true.mp h.2 byte hb

theorem validToken_ne_nil {text : Bytes} (h : validToken text = true) : text ≠ [] := by
  rintro rfl
  exact absurd h (by decide)

theorem Ows.append {text text' : Bytes} (h : Ows text) (h' : Ows text') : Ows (text ++ text') :=
  fun byte hb => (List.mem_append.mp hb).elim (h byte) (h' byte)

theorem Ows.nil : Ows [] := fun _ hb => absurd hb List.not_mem_nil

/-- A text with no white space at its ends. -/
structure Bare (text : Bytes) : Prop where
  ne_nil : text ≠ []
  head : ∀ byte ∈ text.head?, isOws byte = false
  last : ∀ byte ∈ text.getLast?, isOws byte = false

theorem Bare.of_token {text : Bytes} (h : validToken text = true) : Bare text :=
  ⟨validToken_ne_nil h, fun _ hb => (tokenOctet_ne _ (validToken_octet h (List.mem_of_mem_head? hb))).1,
    fun _ hb => (tokenOctet_ne _ (validToken_octet h (List.mem_of_getLast? hb))).1⟩

/-- Whatever stands between two texts, it is not at the ends. -/
theorem Bare.around {text text' : Bytes} (h : Bare text) (h' : Bare text') (between : Bytes) :
    Bare (text ++ between ++ text') := by
  refine ⟨fun hnil => h'.ne_nil (List.append_eq_nil_iff.mp hnil).2, fun byte hb => ?_, fun byte hb => ?_⟩
  · rw [List.append_assoc, List.head?_append_of_ne_nil _ h.ne_nil] at hb
    exact h.head byte hb
  · rw [List.getLast?_append_of_ne_nil _ h'.ne_nil] at hb
    exact h'.last byte hb

theorem Bare.trimOws {text before after : Bytes} (h : Bare text) (hbefore : Ows before)
    (hafter : Ows after) : trimOws (before ++ text ++ after) = text :=
  trimBy_append hbefore hafter (trimBy_eq_self h.head h.last)

theorem Bare.trimOws_left {text before : Bytes} (h : Bare text) (hbefore : Ows before) :
    Proxy.trimOws (before ++ text) = text := by
  have htrim := h.trimOws hbefore Ows.nil
  rwa [List.append_nil] at htrim

theorem Bare.trimOws_right {text after : Bytes} (h : Bare text) (hafter : Ows after) :
    Proxy.trimOws (text ++ after) = text := h.trimOws Ows.nil hafter

theorem trimOws_parts (text : Bytes) : ∃ before after, text = before ++ trimOws text ++ after ∧
    Ows before ∧ Ows after := trimBy_parts isOws text

section

variable {delimiter : UInt8} (hdelimiter : delimiter = 44 ∨ delimiter = 59 ∨ delimiter = 61)

include hdelimiter

theorem isPieceFrom_token {text : Bytes} (h : validToken text = true) :
    isPieceFrom delimiter false false text = true := by
  refine isPieceFrom_plain fun byte hb => ?_
  obtain ⟨-, hquote, hcomma, hsemicolon, hequals⟩ := tokenOctet_ne _ (validToken_octet h hb)
  refine ⟨hquote, ?_⟩
  rcases hdelimiter with rfl | rfl | rfl
  · exact hcomma
  · exact hsemicolon
  · exact hequals

theorem isPieceFrom_ows {text : Bytes} (h : Ows text) :
    isPieceFrom delimiter false false text = true := by
  refine isPieceFrom_plain fun byte hb => ?_
  obtain ⟨hquote, hcomma, hsemicolon, hequals⟩ := isOws_ne byte (h byte hb)
  refine ⟨hquote, ?_⟩
  rcases hdelimiter with rfl | rfl | rfl
  · exact hcomma
  · exact hsemicolon
  · exact hequals

theorem isPieceFrom_value {text : Bytes} (h : ParameterValue text) :
    isPieceFrom delimiter false false text = true := by
  cases h with
  | token h => exact isPieceFrom_token hdelimiter h
  | quoted h => exact isPieceFrom_quoted h

end

/-! ## Parameters -/

theorem validQuotedFrom_iff {text : Bytes} : validQuotedFrom false text = true ↔ QuotedText text := by
  constructor
  · intro h
    induction hlength : text.length using Nat.strongRecOn generalizing text with
    | ind length ih =>
      cases text with
      | nil => exact .nil
      | cons byte rest =>
        rw [validQuotedFrom] at h
        split at h
        · rename_i hescape
          obtain rfl := beq_iff_eq.mp hescape
          cases rest with
          | nil => exact absurd h (by decide)
          | cons next rest =>
            rw [validQuotedFrom, Bool.and_eq_true] at h
            exact .escaped h.1 (ih rest.length (by rw [← hlength]; simp only [List.length_cons]; omega)
              h.2 rfl)
        · rename_i hescape
          rw [Bool.and_eq_true, Bool.and_eq_true, bne_iff_ne] at h
          exact .octet h.1.1 (fun heq => hescape (beq_iff_eq.mpr heq)) h.1.2
            (ih rest.length (by rw [← hlength, List.length_cons]; omega) h.2 rfl)
  · intro h
    induction h with
    | nil => rfl
    | octet hquote hescape hbyte _ ih =>
      rw [validQuotedFrom, ih, hbyte]
      simp [hquote, hescape]
    | escaped hbyte _ ih =>
      rw [validQuotedFrom, if_pos (beq_self_eq_true 92), validQuotedFrom, ih, hbyte]
      rfl

theorem validParameterValue_iff {text : Bytes} :
    validParameterValue text = true ↔ ParameterValue text := by
  rw [validParameterValue, Bool.or_eq_true, Option.any_eq_true]
  constructor
  · rintro (h | ⟨inside, hstrip, h⟩)
    · exact .token h
    · obtain ⟨tail, htail, hinside⟩ := Option.bind_eq_some_iff.mp hstrip
      rw [stripPrefix_eq_some.mp htail, stripSuffix_eq_some.mp hinside]
      exact .quoted (validQuotedFrom_iff.mp h)
  · rintro (h | h)
    · exact .inl h
    · rename_i inside
      refine .inr ⟨inside, ?_, validQuotedFrom_iff.mpr h⟩
      have hstrip : stripPrefix [34] (34 :: inside ++ [34]) = some (inside ++ [34]) :=
        stripPrefix_append [34] (inside ++ [34])
      rw [hstrip, Option.bind_some, stripSuffix_append]

theorem ParameterValue.bare {text : Bytes} (h : ParameterValue text) : Bare text := by
  cases h with
  | token h => exact .of_token h
  | quoted h =>
    refine ⟨List.cons_ne_nil _ _, fun byte hb => ?_, fun byte hb => ?_⟩
    · obtain rfl := Option.some.inj hb
      decide
    · rw [List.getLast?_concat] at hb
      obtain rfl := Option.some.inj hb
      decide

theorem Parameter.bare {text : Bytes} (h : Parameter text) : Bare text := by
  obtain ⟨hname, hbefore, hafter, hvalue⟩ := h
  rename_i name before after value
  have hsplit : name ++ before ++ 61 :: (after ++ value) = name ++ (before ++ 61 :: after) ++ value := by
    simp
  rw [hsplit]
  exact (Bare.of_token hname).around hvalue.bare _

theorem Parameter.piece {text : Bytes} (h : Parameter text) {delimiter : UInt8}
    (hdelimiter : delimiter = 44 ∨ delimiter = 59) :
    isPieceFrom delimiter false false text = true := by
  obtain ⟨hname, hbefore, hafter, hvalue⟩ := h
  have hall : delimiter = 44 ∨ delimiter = 59 ∨ delimiter = 61 := hdelimiter.imp_right .inl
  have hequals : isPieceFrom delimiter false false [61] = true := by
    rcases hdelimiter with rfl | rfl <;> decide
  rw [List.append_assoc, isPieceFrom_append (isPieceFrom_token hall hname),
    isPieceFrom_append (isPieceFrom_ows hall hbefore), ← List.singleton_append,
    isPieceFrom_append hequals, isPieceFrom_append (isPieceFrom_ows hall hafter)]
  exact isPieceFrom_value hall hvalue

/-- What the parser asks of a parameter. -/
def validParameter (parameter : Bytes) : Bool :=
  match splitQuoted (trimOws parameter) 61 with
  | .ok [name, value] => validToken (trimOws name) && validParameterValue (trimOws value)
  | _ => false

theorem splitQuoted_eq_ok {text : Bytes} {delimiter : UInt8} {fields : List Bytes} :
    splitQuoted text delimiter = .ok fields ↔
      splitQuotedFrom delimiter false false text = some fields := by
  unfold splitQuoted
  split
  · rename_i found hfound
    rw [hfound]
    exact ⟨fun h => congrArg some (Except.ok.inj h), fun h => congrArg Except.ok (Option.some.inj h)⟩
  · rename_i hnone
    rw [hnone]
    constructor <;> intro h <;> cases h

theorem Parameter.valid {text before after : Bytes} (h : Parameter text) (hbefore : Ows before)
    (hafter : Ows after) : validParameter (before ++ text ++ after) = true := by
  rw [validParameter, h.bare.trimOws hbefore hafter]
  obtain ⟨hname, hleft, hright, hvalue⟩ := h
  rename_i name left right value
  have hall : (61 : UInt8) = 44 ∨ (61 : UInt8) = 59 ∨ (61 : UInt8) = 61 := by decide
  have hsplit : splitQuoted (name ++ left ++ 61 :: (right ++ value)) 61 =
      .ok [name ++ left, right ++ value] := by
    rw [splitQuoted_eq_ok, splitQuotedFrom_piece (by decide), splitQuotedFrom_last]
    · rfl
    · rw [isPieceFrom_append (isPieceFrom_ows hall hright)]
      exact isPieceFrom_value hall hvalue
    · rw [isPieceFrom_append (isPieceFrom_token hall hname)]
      exact isPieceFrom_ows hall hleft
  rw [hsplit]
  show (validToken (trimOws (name ++ left)) && validParameterValue (trimOws (right ++ value))) = true
  rw [(Bare.of_token hname).trimOws_right hleft, hvalue.bare.trimOws_left hright, hname,
    validParameterValue_iff.mpr hvalue]
  rfl

theorem exists_parameter {text : Bytes} (h : validParameter text = true) :
    ∃ before parameter after, text = before ++ parameter ++ after ∧ Ows before ∧ Ows after ∧
      Parameter parameter := by
  obtain ⟨before, after, htext, hbefore, hafter⟩ := trimOws_parts text
  unfold validParameter at h
  split at h
  · rename_i name value hsplit
    rw [Bool.and_eq_true] at h
    have htrim : trimOws text = name ++ 61 :: value := by
      rcases splitQuotedFrom_cases (splitQuoted_eq_ok.mp hsplit) with hone | ⟨first, fields, rest, heq,
        hjoin, hrest⟩
      · cases hone
      · obtain ⟨rfl, rfl⟩ := List.cons.inj heq
        rcases splitQuotedFrom_cases hrest with hone | ⟨first', fields', rest', heq', -, hrest'⟩
        · rw [hjoin, (List.cons.inj hone).1]
        · obtain ⟨-, rfl⟩ := List.cons.inj heq'
          rcases splitQuotedFrom_cases hrest' with hone | ⟨_, _, _, hmore, -, -⟩
          · cases hone
          · cases hmore
    obtain ⟨left, right, hname, hleft, hright⟩ := trimOws_parts name
    obtain ⟨left', right', hvalue, hleft', hright'⟩ := trimOws_parts value
    refine ⟨before ++ left, trimOws name ++ right ++ 61 :: (left' ++ trimOws value), right' ++ after, ?_,
      hbefore.append hleft, hright'.append hafter,
      .mk h.1 hright hleft' (validParameterValue_iff.mp h.2)⟩
    rw [htext, htrim]
    nth_rewrite 1 [hname]
    nth_rewrite 1 [hvalue]
    simp
  · cases h

/-! ## Codings -/

theorem validTransferCoding_eq (value : Bytes) : validTransferCoding value =
    match splitQuoted value 59 with
    | .error _ => false
    | .ok parts => validToken (trimOws (parts.headD [])) && parts.tail.all validParameter := rfl

/-- What a coding is split into, with white space after it. -/
theorem CodingText.split {name text after : Bytes} {parameters : List Bytes}
    (h : CodingText name parameters text) (hafter : Ows after) :
    ∃ parts : List Bytes, parts ≠ [] ∧ trimOws (parts.headD []) = name ∧
      (∀ part ∈ parts.tail, validParameter part = true) ∧
      splitQuotedFrom 59 false false (text ++ after) = some parts ∧
      ∀ rest, splitQuotedFrom 59 false false (text ++ after ++ 59 :: rest) =
        (splitQuotedFrom 59 false false rest).map (parts ++ ·) := by
  have hall : (59 : UInt8) = 44 ∨ (59 : UInt8) = 59 ∨ (59 : UInt8) = 61 := by decide
  induction h generalizing after with
  | name hname =>
    have hpiece : isPieceFrom 59 false false (name ++ after) = true := by
      rw [isPieceFrom_append (isPieceFrom_token hall hname)]
      exact isPieceFrom_ows hall hafter
    exact ⟨[name ++ after], List.cons_ne_nil _ _, (Bare.of_token hname).trimOws_right hafter,
      fun part hp => absurd hp List.not_mem_nil, splitQuotedFrom_last hpiece,
      splitQuotedFrom_piece (by decide) hpiece⟩
  | @parameter parameters text before after' parameter _ hbefore hafter' hparameter ih =>
    obtain ⟨parts, hne, hname, hparts, -, hrest⟩ := ih hbefore
    have hpiece : isPieceFrom 59 false false (after' ++ parameter ++ after) = true := by
      rw [List.append_assoc, isPieceFrom_append (isPieceFrom_ows hall hafter'),
        isPieceFrom_append (hparameter.piece (.inr rfl))]
      exact isPieceFrom_ows hall hafter
    have hjoin (rest : Bytes) : text ++ before ++ 59 :: (after' ++ parameter) ++ rest =
        text ++ before ++ 59 :: (after' ++ parameter ++ rest) := by
      simp
    refine ⟨parts ++ [after' ++ parameter ++ after], by simp, ?_, fun part hp => ?_, ?_, fun rest => ?_⟩
    · obtain ⟨part, parts, rfl⟩ := List.exists_cons_of_ne_nil hne
      exact hname
    · rw [List.tail_append_of_ne_nil hne, List.mem_append, List.mem_singleton] at hp
      rcases hp with hp | rfl
      · exact hparts part hp
      · exact hparameter.valid hafter' hafter
    · rw [hjoin, hrest, splitQuotedFrom_last hpiece]
      rfl
    · rw [hjoin, List.append_assoc, List.cons_append, hrest,
        splitQuotedFrom_piece (by decide) hpiece, Option.map_map]
      refine congrArg (Option.map · _) (funext fun fields => ?_)
      simp

theorem CodingText.validName {name text : Bytes} {parameters : List Bytes}
    (h : CodingText name parameters text) : validToken name = true := by
  induction h with
  | name h => exact h
  | parameter _ _ _ _ ih => exact ih

theorem CodingText.bare {name text : Bytes} {parameters : List Bytes}
    (h : CodingText name parameters text) : Bare text := by
  induction h with
  | name h => exact .of_token h
  | @parameter parameters text before after parameter _ _ _ hparameter ih =>
    have hsplit : text ++ before ++ 59 :: (after ++ parameter) =
        text ++ (before ++ 59 :: after) ++ parameter := by
      simp
    rw [hsplit]
    exact ih.around hparameter.bare _

theorem CodingText.valid {name text : Bytes} {parameters : List Bytes}
    (h : CodingText name parameters text) : validTransferCoding text = true := by
  obtain ⟨parts, -, hhead, hparts, hsplit, -⟩ := h.split Ows.nil
  rw [List.append_nil] at hsplit
  rw [validTransferCoding_eq, splitQuoted_eq_ok.mpr hsplit]
  show (validToken (trimOws (parts.headD [])) && parts.tail.all validParameter) = true
  rw [hhead, h.validName, Bool.true_and]
  exact List.all_eq_true.mpr hparts

/-- The first semicolon of a coding is behind its name. -/
theorem CodingText.first {name text : Bytes} {parameters : List Bytes}
    (h : CodingText name parameters text) : parameters = [] ∧ text = name ∨
      parameters ≠ [] ∧ ∃ before rest, Ows before ∧ text = name ++ before ++ 59 :: rest := by
  induction h with
  | name h => exact .inl ⟨rfl, rfl⟩
  | @parameter parameters text before after parameter _ hbefore _ _ ih =>
    refine .inr ⟨by simp, ?_⟩
    rcases ih with ⟨-, rfl⟩ | ⟨-, before', rest, hbefore', rfl⟩
    · exact ⟨before, _, hbefore, rfl⟩
    · refine ⟨before', rest ++ (before ++ 59 :: (after ++ parameter)), hbefore', ?_⟩
      simp only [List.append_assoc, List.cons_append]

theorem semicolon_not_mem {name before : Bytes} (hname : validToken name = true)
    (hbefore : Ows before) : (59 : UInt8) ∉ name ++ before := by
  intro h
  rcases List.mem_append.mp h with h | h
  · exact (tokenOctet_ne _ (validToken_octet hname h)).2.2.2.1 rfl
  · exact (isOws_ne _ (hbefore _ h)).2.2.1 rfl

theorem CodingText.transferCodingName {name text : Bytes} {parameters : List Bytes}
    (h : CodingText name parameters text) : transferCodingName text = name := by
  have hname := h.validName
  unfold Proxy.transferCodingName
  rcases h.first with ⟨-, rfl⟩ | ⟨-, before, rest, hbefore, rfl⟩
  · have hnot := semicolon_not_mem hname Ows.nil
    rw [List.append_nil] at hnot
    rw [List.splitOn_eq_singleton hnot]
    have htrim := (Bare.of_token hname).trimOws_left Ows.nil
    exact htrim
  · rw [List.splitOn_append_cons_self_of_not_mem (semicolon_not_mem hname hbefore)]
    exact (Bare.of_token hname).trimOws_right hbefore

theorem CodingText.contains_iff {name text : Bytes} {parameters : List Bytes}
    (h : CodingText name parameters text) : text.contains 59 = true ↔ parameters ≠ [] := by
  have hname := h.validName
  rw [List.contains_iff_mem]
  rcases h.first with ⟨hnil, rfl⟩ | ⟨hne, before, rest, -, rfl⟩
  · have hnot := semicolon_not_mem hname Ows.nil
    rw [List.append_nil] at hnot
    exact iff_of_false hnot (not_not.mpr hnil)
  · exact iff_of_true (by simp) hne

theorem CodingText.piece {name text : Bytes} {parameters : List Bytes}
    (h : CodingText name parameters text) : isPieceFrom 44 false false text = true := by
  have hall : (44 : UInt8) = 44 ∨ (44 : UInt8) = 59 ∨ (44 : UInt8) = 61 := by decide
  induction h with
  | name h => exact isPieceFrom_token hall h
  | parameter _ hbefore hafter hparameter ih =>
    rw [List.append_assoc, isPieceFrom_append ih, isPieceFrom_append (isPieceFrom_ows hall hbefore),
      ← List.singleton_append, isPieceFrom_append (by decide),
      isPieceFrom_append (isPieceFrom_ows hall hafter)]
    exact hparameter.piece (.inl rfl)

/-- Parameters behind the text of a coding. -/
theorem exists_codingText {fields : List Bytes} {name text before rest : Bytes}
    {parameters : List Bytes} (h : CodingText name parameters text) (hbefore : Ows before)
    (hsplit : splitQuotedFrom 59 false false rest = some fields)
    (hfields : ∀ field ∈ fields, validParameter field = true) :
    ∃ parameters' text' after, text ++ before ++ 59 :: rest = text' ++ after ∧ Ows after ∧
      CodingText name parameters' text' := by
  induction fields generalizing text before rest parameters with
  | nil =>
    rcases splitQuotedFrom_cases hsplit with hone | ⟨_, _, _, hmore, -, -⟩
    · cases hone
    · cases hmore
  | cons field fields ih =>
    obtain ⟨left, parameter, right, hfield, hleft, hright, hparameter⟩ :=
      exists_parameter (hfields field List.mem_cons_self)
    have hnext := h.parameter hbefore hleft hparameter
    rcases splitQuotedFrom_cases hsplit with hone | ⟨first, fields', rest', heq, hrest, hsplit'⟩
    · obtain ⟨rfl, -⟩ := List.cons.inj hone
      refine ⟨_, _, right, ?_, hright, hnext⟩
      rw [hfield]
      simp
    · obtain ⟨rfl, rfl⟩ := List.cons.inj heq
      obtain ⟨parameters', text', after, hjoin, hafter, htext⟩ := ih hnext hright hsplit'
        fun field hf => hfields field (List.mem_cons_of_mem _ hf)
      refine ⟨parameters', text', after, ?_, hafter, htext⟩
      rw [← hjoin, hrest, hfield]
      simp

/-- What the parser accepts as a coding is one. -/
theorem exists_codingMember {value : Bytes} (h : validTransferCoding (trimOws value) = true) :
    ∃ coding, CodingMember coding value := by
  obtain ⟨before, after, hvalue, hbefore, hafter⟩ := trimOws_parts value
  generalize trimOws value = inner at h hvalue
  rw [validTransferCoding_eq] at h
  split at h
  · cases h
  · rename_i parts hparts
    rw [Bool.and_eq_true, List.all_eq_true] at h
    rcases splitQuotedFrom_cases (splitQuoted_eq_ok.mp hparts) with rfl | ⟨first, fields, rest, rfl,
      hinner, hsplit⟩
    · obtain ⟨left, right, hname, hleft, hright⟩ := trimOws_parts inner
      rw [List.headD_cons] at h
      have hsame : value = before ++ left ++ trimOws inner ++ (right ++ after) := by
        rw [hvalue]
        nth_rewrite 1 [hname]
        simp only [List.append_assoc]
      refine ⟨⟨trimOws inner, []⟩, ?_⟩
      rw [hsame]
      exact .mk (hbefore.append hleft) (.name h.1) (hright.append hafter)
    · obtain ⟨left, right, hname, hleft, hright⟩ := trimOws_parts first
      rw [List.headD_cons, List.tail_cons] at h
      obtain ⟨parameters, text, after', hjoin, hafter', htext⟩ :=
        exists_codingText (.name h.1) hright hsplit h.2
      refine ⟨⟨trimOws first, parameters⟩, ?_⟩
      have hsame : value = before ++ left ++ text ++ (after' ++ after) := by
        rw [hvalue, hinner, hname]
        simp only [List.append_assoc] at hjoin ⊢
        rw [← List.append_assoc text, ← hjoin]
        simp
      rw [hsame]
      exact .mk (hbefore.append hleft) htext (hafter'.append hafter)

/-! ## Lists of codings -/

def TransferCoding.namesChunked (coding : TransferCoding) : Bool :=
  eqIgnoreCase coding.name (ascii "chunked")

/-- What the parser sees of a member of a list. -/
structure SeenAs (coding : TransferCoding) (value : Bytes) : Prop where
  valid : validTransferCoding value = true
  isChunked : isChunked value = coding.namesChunked
  contains : value.contains 59 = true ↔ coding.parameters ≠ []

theorem CodingMember.seenAs {coding : TransferCoding} {text : Bytes} (h : CodingMember coding text) :
    SeenAs coding (trimOws text) := by
  obtain ⟨hbefore, h, hafter⟩ := h
  rw [h.bare.trimOws hbefore hafter]
  refine ⟨h.valid, ?_, h.contains_iff⟩
  rw [Proxy.isChunked, h.transferCodingName, TransferCoding.namesChunked]

theorem CodingMember.piece {coding : TransferCoding} {text : Bytes} (h : CodingMember coding text) :
    isPieceFrom 44 false false text = true := by
  have hall : (44 : UInt8) = 44 ∨ (44 : UInt8) = 59 ∨ (44 : UInt8) = 61 := by decide
  obtain ⟨hbefore, h, hafter⟩ := h
  rw [List.append_assoc, isPieceFrom_append (isPieceFrom_ows hall hbefore), isPieceFrom_append h.piece]
  exact isPieceFrom_ows hall hafter

/-- **The parser splits a list of codings into its members.** -/
theorem codingList_iff {codings : List TransferCoding} {text : Bytes} : CodingList codings text ↔
    ∃ members, splitQuoted text 44 = .ok members ∧ List.Forall₂ CodingMember codings members := by
  simp only [splitQuoted_eq_ok]
  constructor
  · intro h
    induction h with
    | single h =>
      exact ⟨_, splitQuotedFrom_last h.piece, .cons h .nil⟩
    | cons h _ ih =>
      obtain ⟨members, hsplit, hmembers⟩ := ih
      refine ⟨_ :: members, ?_, .cons h hmembers⟩
      rw [splitQuotedFrom_piece (by decide) h.piece, hsplit]
      rfl
  · rintro ⟨members, hsplit, hmembers⟩
    induction hmembers generalizing text with
    | nil =>
      rcases splitQuotedFrom_cases hsplit with hone | ⟨_, _, _, hmore, -, -⟩
      · cases hone
      · cases hmore
    | cons h _ ih =>
      rcases splitQuotedFrom_cases hsplit with hone | ⟨first, members', rest, heq, rfl, hsplit'⟩
      · obtain ⟨rfl, rfl⟩ := List.cons.inj hone
        rename_i hrest
        obtain rfl := List.forall₂_nil_right_iff.mp hrest
        exact .single h
      · obtain ⟨rfl, rfl⟩ := List.cons.inj heq
        exact .cons h (ih hsplit')

theorem exists_codings {members : List Bytes}
    (h : ∀ member ∈ members, validTransferCoding (trimOws member) = true) :
    ∃ codings, List.Forall₂ CodingMember codings members := by
  induction members with
  | nil => exact ⟨[], .nil⟩
  | cons member members ih =>
    obtain ⟨coding, hcoding⟩ := exists_codingMember (h member List.mem_cons_self)
    obtain ⟨codings, hcodings⟩ := ih fun member hm => h member (List.mem_cons_of_mem _ hm)
    exact ⟨coding :: codings, .cons hcoding hcodings⟩

/-- A list of codings and its last member. -/
theorem codings_concat {codings : List TransferCoding} {members : List Bytes} {member : Bytes}
    (h : List.Forall₂ CodingMember codings (members ++ [member])) :
    ∃ before last, codings = before ++ [last] ∧ List.Forall₂ CodingMember before members ∧
      CodingMember last member := by
  have hdrop := List.forall₂_drop_append _ _ _ h
  obtain ⟨last, rest, hlast, hrest, heq⟩ := List.forall₂_cons_right_iff.mp hdrop
  obtain rfl := List.forall₂_nil_right_iff.mp hrest
  refine ⟨codings.take members.length, last, ?_, List.forall₂_take_append _ _ _ h, hlast⟩
  rw [← heq, List.take_append_drop]

theorem splitQuoted_ne_nil {text : Bytes} {delimiter : UInt8} {fields : List Bytes}
    (h : splitQuoted text delimiter = .ok fields) : fields ≠ [] := by
  rcases splitQuotedFrom_cases (splitQuoted_eq_ok.mp h) with rfl | ⟨first, fields', rest, rfl, -, -⟩
  · exact List.cons_ne_nil _ _
  · exact List.cons_ne_nil _ _

/-! ## Framing fields -/

section

variable [HttpCrate]

/-- The codings of several fields, one list after another. -/
def SpellCodings (values : List HeaderValue) (codings : List TransferCoding) : Prop :=
  ∃ lists, List.Forall₂ (fun list (value : HeaderValue) => CodingList list value.asBytes) lists values ∧
    lists.flatten = codings

/-- The last coding is `chunked` without parameters, and no other is `chunked`. -/
def EndsChunked (values : List HeaderValue) : Prop :=
  ∃ before last, SpellCodings values (before ++ [last]) ∧
    (∀ coding ∈ before, coding.namesChunked = false) ∧ last.namesChunked = true ∧ last.parameters = []

/-- Every member of every field is a numeral of the same length below 2 ^ 64. -/
def FixedLength (values : List HeaderValue) (length : ℕ) : Prop :=
  values ≠ [] ∧ length < 2 ^ 64 ∧ ∀ value ∈ values, ∀ member ∈ value.asBytes.splitOn 44,
    trimOws member ≠ [] ∧ (∀ byte ∈ trimOws member, Ascii.isDigit byte = true) ∧
      Numerals.value 10 (trimOws member) = length

theorem spellCodings_iff {values : List HeaderValue} {codings : List TransferCoding} :
    SpellCodings values codings ↔ ∃ members,
      List.Forall₂ (fun (value : HeaderValue) members => splitQuoted value.asBytes 44 = .ok members)
        values members ∧ List.Forall₂ CodingMember codings members.flatten := by
  constructor
  · rintro ⟨lists, hlists, rfl⟩
    induction hlists with
    | nil => exact ⟨[], .nil, .nil⟩
    | cons h _ ih =>
      obtain ⟨members, hsplit, hmembers⟩ := codingList_iff.mp h
      obtain ⟨more, hsplits, hmore⟩ := ih
      exact ⟨members :: more, .cons hsplit hsplits, List.rel_append hmembers hmore⟩
  · rintro ⟨members, hsplits, hmembers⟩
    induction hsplits generalizing codings with
    | nil => exact ⟨[], .nil, (List.forall₂_nil_right_iff.mp hmembers).symm⟩
    | @cons value members values more hsplit _ ih =>
      rw [List.flatten_cons] at hmembers
      obtain ⟨lists, hlists, hflat⟩ := ih (List.forall₂_drop_append _ _ _ hmembers)
      refine ⟨codings.take members.length :: lists, .cons ?_ hlists, ?_⟩
      · exact codingList_iff.mpr ⟨members, hsplit, List.forall₂_take_append _ _ _ hmembers⟩
      · rw [List.flatten_cons, hflat, List.take_append_drop]

theorem transferCodings_eq_ok {headers : HeaderMap} {values : List Bytes} :
    transferCodings headers = .ok values ↔ ∃ members,
      List.Forall₂ (fun (value : HeaderValue) members => splitQuoted value.asBytes 44 = .ok members)
        (headers.getAll .transferEncoding) members ∧ values = members.flatten.map trimOws := by
  unfold transferCodings
  constructor
  · intro h
    cases hmembers : (headers.getAll .transferEncoding).mapM fun value =>
      splitQuoted value.asBytes 44 with
    | error error =>
      rw [hmembers] at h
      cases h
    | ok members =>
      rw [hmembers] at h
      exact ⟨members, mapM_eq_ok.mp hmembers, (Except.ok.inj h).symm⟩
  · rintro ⟨members, hmembers, rfl⟩
    rw [mapM_eq_ok.mpr hmembers]
    rfl

/-- What the parser asks of the codings of a request. -/
theorem parseTransferEncoding_eq_ok {headers : HeaderMap} {chunked : Bool} :
    parseTransferEncoding headers = .ok chunked ↔ ∃ values, transferCodings headers = .ok values ∧
      (values = [] ∧ chunked = false ∨ values ≠ [] ∧ chunked = true ∧
        (∀ value ∈ values, validTransferCoding value = true) ∧
        values.getLast?.any isChunked = true ∧
        (∀ value ∈ values.dropLast, isChunked value = false) ∧
        ∀ value ∈ values, isChunked value = true → value.contains 59 = false) := by
  unfold parseTransferEncoding
  cases transferCodings headers with
  | error error => exact iff_of_false (fun h => by cases h) (by rintro ⟨_, h, -⟩; cases h)
  | ok values =>
    simp only [bind, Except.bind, Except.ok.injEq, exists_eq_left']
    by_cases hnil : values = []
    · subst hnil
      simp only [List.isEmpty_nil, ↓reduceIte, pure, Except.pure, Except.ok.injEq, true_and, ne_eq,
        not_true_eq_false, false_and, or_false]
      exact eq_comm
    · have hempty : values.isEmpty = false := List.isEmpty_eq_false_iff.mpr hnil
      simp only [hempty, Bool.false_eq_true, ↓reduceIte, hnil, false_and, ne_eq, not_false_eq_true,
        true_and, false_or]
      split
      · rename_i hrefused
        refine iff_of_false (fun h => by cases h) ?_
        rintro ⟨-, hvalid, hlast, hothers, hbare⟩
        simp only [Bool.or_eq_true, List.any_eq_true, Bool.not_eq_true', Bool.and_eq_true] at hrefused
        rcases hrefused with ((⟨value, hv, hinvalid⟩ | hend) | ⟨value, hv, hchunked⟩) |
          ⟨value, hv, hchunked, hsemicolon⟩
        · rw [hvalid value hv] at hinvalid
          cases hinvalid
        · rw [hlast] at hend
          cases hend
        · rw [hothers value hv] at hchunked
          cases hchunked
        · rw [hbare value hv hchunked] at hsemicolon
          cases hsemicolon
      · rename_i haccepted
        simp only [Bool.or_eq_true, List.any_eq_true, Bool.not_eq_true', Bool.and_eq_true, not_or,
          not_exists, not_and, Bool.not_eq_true, Bool.not_eq_false] at haccepted
        obtain ⟨⟨⟨hvalid, hlast⟩, hothers⟩, hbare⟩ := haccepted
        constructor
        · intro h
          exact ⟨(Except.ok.inj h).symm, hvalid, hlast, hothers, hbare⟩
        · rintro ⟨rfl, -⟩
          rfl

/-- **A request is chunked exactly when its codings end in the only `chunked`.** -/
theorem parseTransferEncoding_true (headers : HeaderMap) :
    parseTransferEncoding headers = .ok true ↔ EndsChunked (headers.getAll .transferEncoding) := by
  rw [parseTransferEncoding_eq_ok]
  constructor
  · rintro ⟨values, hvalues, ⟨-, hfalse⟩ | ⟨hne, -, hvalid, hlast, hothers, hbare⟩⟩
    · cases hfalse
    · obtain ⟨members, hsplit, rfl⟩ := transferCodings_eq_ok.mp hvalues
      obtain ⟨codings, hcodings⟩ := exists_codings fun member hm =>
        hvalid _ (List.mem_map_of_mem hm)
      have hspell := spellCodings_iff.mpr ⟨members, hsplit, hcodings⟩
      rcases List.eq_nil_or_concat members.flatten with hnil | ⟨front, member, hconcat⟩
      · exact absurd (by rw [hnil]; rfl) hne
      · rw [List.concat_eq_append] at hconcat
        rw [hconcat] at hcodings hlast hothers hbare
        obtain ⟨before, last, rfl, hbefore, hmember⟩ := codings_concat hcodings
        rw [List.map_append, List.map_singleton, List.getLast?_concat] at hlast
        rw [List.map_append, List.map_singleton, List.dropLast_concat] at hothers
        have hchunked : isChunked (trimOws member) = true := hlast
        refine ⟨before, last, hspell, fun coding hc => ?_, ?_, ?_⟩
        · obtain ⟨member', hm, hcoding⟩ := exists_right_of_forall₂ hbefore hc
          rw [← hcoding.seenAs.isChunked]
          exact hothers _ (List.mem_map_of_mem hm)
        · rw [← hmember.seenAs.isChunked, hchunked]
        · have hsemicolon := hbare (trimOws member) (by simp) hchunked
          by_contra hparameters
          rw [hmember.seenAs.contains.mpr hparameters] at hsemicolon
          cases hsemicolon
  · rintro ⟨before, last, hspell, hothers, hlast, hparameters⟩
    obtain ⟨members, hsplit, hcodings⟩ := spellCodings_iff.mp hspell
    have hlength := hcodings.length_eq
    rcases List.eq_nil_or_concat members.flatten with hnil | ⟨front, member, hconcat⟩
    · rw [hnil] at hlength
      simp at hlength
    · have hvalues := transferCodings_eq_ok.mpr ⟨members, hsplit, rfl⟩
      rw [List.concat_eq_append] at hconcat
      rw [hconcat] at hcodings hvalues
      obtain ⟨before', last', heq, hbefore, hmember⟩ := codings_concat hcodings
      obtain ⟨rfl, hsame⟩ := List.append_inj' heq rfl
      obtain rfl := (List.cons.inj hsame).1
      rw [List.map_append, List.map_singleton] at hvalues
      have hseen {value : Bytes} (hv : value ∈ front.map trimOws) : ∃ coding ∈ before,
          SeenAs coding value := by
        obtain ⟨member', hm, rfl⟩ := List.mem_map.mp hv
        obtain ⟨coding, hc, hcoding⟩ := exists_left_of_forall₂ hbefore hm
        exact ⟨coding, hc, hcoding.seenAs⟩
      refine ⟨_, hvalues, .inr ⟨by simp, rfl, fun value hv => ?_, ?_, fun value hv => ?_,
        fun value hv hchunked => ?_⟩⟩
      · rcases List.mem_append.mp hv with hv | hv
        · obtain ⟨coding, -, hseen⟩ := hseen hv
          exact hseen.valid
        · rw [List.mem_singleton.mp hv]
          exact hmember.seenAs.valid
      · rw [List.getLast?_concat]
        exact hmember.seenAs.isChunked.trans hlast
      · rw [List.dropLast_concat] at hv
        obtain ⟨coding, hc, hseen⟩ := hseen hv
        rw [hseen.isChunked, hothers coding hc]
      · rcases List.mem_append.mp hv with hv | hv
        · obtain ⟨coding, hc, hseen⟩ := hseen hv
          rw [hseen.isChunked, hothers coding hc] at hchunked
          cases hchunked
        · rw [List.mem_singleton.mp hv, Bool.eq_false_iff]
          exact fun h => hmember.seenAs.contains.mp h hparameters

theorem parseTransferEncoding_false (headers : HeaderMap) :
    parseTransferEncoding headers = .ok false ↔ headers.getAll .transferEncoding = [] := by
  rw [parseTransferEncoding_eq_ok]
  constructor
  · rintro ⟨values, hvalues, ⟨hnil, -⟩ | ⟨-, htrue, -⟩⟩
    · obtain ⟨members, hsplit, rfl⟩ := transferCodings_eq_ok.mp hvalues
      generalize headers.getAll .transferEncoding = found at hsplit ⊢
      cases hsplit with
      | nil => rfl
      | cons h _ =>
        rw [List.map_eq_nil_iff, List.flatten_cons, List.append_eq_nil_iff] at hnil
        exact absurd hnil.1 (splitQuoted_ne_nil h)
    · cases htrue
  · intro h
    refine ⟨[], transferCodings_eq_ok.mpr ⟨[], ?_, rfl⟩, .inl ⟨rfl, rfl⟩⟩
    rw [h]
    exact .nil

omit [HttpCrate] in
/-- What the parser asks of the members of the lengths, of which it may have found one. -/
theorem parseContentLengthMembers_eq_ok {found result : Option ℕ} {members : List Bytes} :
    parseContentLengthMembers found members = .ok result ↔
      members = [] ∧ result = found ∨ members ≠ [] ∧ ∃ length, result = some length ∧
        (∀ length' ∈ found, length' = length) ∧ length < 2 ^ 64 ∧ ∀ member ∈ members,
          member ≠ [] ∧ (∀ byte ∈ member, Ascii.isDigit byte = true) ∧
            Numerals.value 10 member = length := by
  induction members generalizing found with
  | nil =>
    rw [parseContentLengthMembers]
    simp only [Except.ok.injEq, true_and, ne_eq, not_true_eq_false, false_and, or_false]
    exact eq_comm
  | cons member members ih =>
    rw [parseContentLengthMembers]
    simp only [List.cons_ne_nil, false_and, ne_eq, not_false_eq_true, true_and, false_or,
      List.forall_mem_cons]
    split
    · rename_i hrefused
      refine iff_of_false (fun h => by cases h) ?_
      rintro ⟨length, -, -, -, ⟨hne, hdigit, -⟩, -⟩
      simp only [Bool.or_eq_true, List.isEmpty_iff, Bool.not_eq_true', List.all_eq_false] at hrefused
      rcases hrefused with hnil | ⟨byte, hb, hnot⟩
      · exact hne hnil
      · exact hnot (hdigit byte hb)
    · rename_i haccepted
      simp only [Bool.or_eq_true, List.isEmpty_iff, Bool.not_eq_true', not_or, Bool.not_eq_false,
        List.all_eq_true] at haccepted
      obtain ⟨hne, hdigit⟩ := haccepted
      rw [Numerals.checkedValue_eq (by decide)]
      by_cases hle : Numerals.value 10 member ≤ 2 ^ 64 - 1
      · rw [if_pos hle]
        simp only
        split
        · rename_i hother
          refine iff_of_false (fun h => by cases h) ?_
          rintro ⟨length, -, hfound, -, ⟨-, -, hvalue⟩, -⟩
          obtain ⟨length', hmem, hdiffer⟩ := (Option.any_eq_true _ _).mp hother
          rw [bne_iff_ne] at hdiffer
          exact hdiffer ((hfound length' hmem).trans hvalue.symm)
        · rename_i hsame
          have hfound : ∀ length' ∈ found, length' = Numerals.value 10 member := by
            intro length' hmem
            by_contra hdiffer
            exact hsame ((Option.any_eq_true _ _).mpr ⟨length', hmem, bne_iff_ne.mpr hdiffer⟩)
          rw [ih]
          constructor
          · rintro (⟨rfl, rfl⟩ | ⟨-, length, rfl, hsome, hlt, hmembers⟩)
            · exact ⟨_, rfl, hfound, by omega, ⟨hne, hdigit, rfl⟩, fun _ hm => absurd hm List.not_mem_nil⟩
            · obtain rfl := hsome _ rfl
              exact ⟨_, rfl, hfound, hlt, ⟨hne, hdigit, rfl⟩, hmembers⟩
          · rintro ⟨length, rfl, -, hlt, ⟨-, -, rfl⟩, hmembers⟩
            by_cases hnil : members = []
            · exact .inl ⟨hnil, rfl⟩
            · exact .inr ⟨hnil, _, rfl, fun length' hmem => (Option.some.inj hmem).symm, hlt, hmembers⟩
      · rw [if_neg hle]
        refine iff_of_false (fun h => by cases h) ?_
        rintro ⟨length, -, -, hlt, ⟨-, -, rfl⟩, -⟩
        omega

theorem members_eq_nil {values : List HeaderValue} :
    (values.flatMap fun (value : HeaderValue) => (value.asBytes.splitOn 44).map trimOws) = [] ↔
      values = [] := by
  constructor
  · intro h
    cases values with
    | nil => rfl
    | cons value values =>
      rw [List.flatMap_cons, List.append_eq_nil_iff, List.map_eq_nil_iff] at h
      exact absurd h.1 (List.splitOn_ne_nil 44 _)
  · rintro rfl
    rfl

theorem parseContentLength_some (headers : HeaderMap) (length : ℕ) :
    parseContentLength headers = .ok (some length) ↔
      FixedLength (headers.getAll .contentLength) length := by
  rw [parseContentLength, parseContentLengthMembers_eq_ok]
  constructor
  · rintro (⟨-, hnone⟩ | ⟨hne, length', hsome, -, hlt, hmembers⟩)
    · cases hnone
    · obtain rfl := Option.some.inj hsome
      refine ⟨fun hnil => hne (members_eq_nil.mpr hnil), hlt, fun value hv member hm => ?_⟩
      exact hmembers _ (List.mem_flatMap.mpr ⟨value, hv, List.mem_map_of_mem hm⟩)
  · rintro ⟨hne, hlt, hmembers⟩
    refine .inr ⟨fun hnil => hne (members_eq_nil.mp hnil), length, rfl,
      fun _ hm => absurd hm (Option.not_mem_none _), hlt, fun member hm => ?_⟩
    obtain ⟨value, hv, hm⟩ := List.mem_flatMap.mp hm
    obtain ⟨text, htext, rfl⟩ := List.mem_map.mp hm
    exact hmembers value hv text htext

theorem parseContentLength_none (headers : HeaderMap) :
    parseContentLength headers = .ok none ↔ headers.getAll .contentLength = [] := by
  rw [parseContentLength, parseContentLengthMembers_eq_ok, members_eq_nil]
  simp

/-- The framing is put together from what the two fields give. -/
theorem parseFraming_eq_ok {headers : HeaderMap} {framing : BodyFraming} :
    parseFraming headers = .ok framing ↔
      parseContentLength headers = .ok none ∧ parseTransferEncoding headers = .ok true ∧
          framing = .chunked ∨
        (∃ length, parseContentLength headers = .ok (some length) ∧
          parseTransferEncoding headers = .ok false ∧ framing = .contentLength length) ∨
        parseContentLength headers = .ok none ∧ parseTransferEncoding headers = .ok false ∧
          framing = .none := by
  unfold parseFraming
  cases parseContentLength headers with
  | error error => simp [bind, Except.bind]
  | ok length =>
    cases parseTransferEncoding headers with
    | error error => simp [bind, Except.bind]
    | ok chunked =>
      cases length <;> cases chunked <;>
        simp [bind, Except.bind, pure, Except.pure, throw, throwThe, MonadExceptOf.throw, eq_comm]

/-- What an accepted request head is made of. -/
theorem parseHead_eq_ok {requestLine headerSection : Bytes} {head : RequestHead}
    (h : parseHead requestLine headerSection = .ok head) :
    ∃ version tokens,
      (stripSuffix crlf requestLine).map (·.splitOn 32) = some [head.method, head.rawTarget, version] ∧
      parseVersion version = .ok head.version ∧ parseFields headerSection = .ok head.headers ∧
      parseFraming head.headers = .ok head.framing ∧
      commaTokens head.headers .connection = .ok tokens ∧
      head.close = closesAfter head.version tokens := by
  unfold parseHead at h
  split at h
  · rename_i method rawTarget version hline
    simp only [bind, Except.bind, throw, throwThe, MonadExceptOf.throw, pure, Except.pure] at h
    split at h
    · cases h
    split at h
    · cases h
    split at h
    · cases h
    split at h
    · cases h
    rename_i version' hversion
    split at h
    · cases h
    rename_i headers hheaders
    split at h
    · cases h
    split at h
    · cases h
    split at h
    · cases h
    rename_i framing hframing
    split at h
    · cases h
    rename_i tokens htokens
    obtain rfl := Except.ok.inj h
    exact ⟨version, tokens, hline, hversion, hheaders, hframing, htokens, rfl⟩
  · cases h

/-- **Framing is accepted exactly when it is unambiguous**: a chunked body is announced by codings that
end in the only `chunked`, a body of fixed length by lengths that all agree, no body by neither field, and
every other list of fields is refused. The framing of an accepted head is that of its fields. -/
theorem framing_iff (headers : HeaderMap) :
    (parseFraming headers = .ok .chunked ↔
      EndsChunked (headers.getAll .transferEncoding) ∧ headers.getAll .contentLength = []) ∧
    (∀ length, parseFraming headers = .ok (.contentLength length) ↔
      headers.getAll .transferEncoding = [] ∧ FixedLength (headers.getAll .contentLength) length) ∧
    (parseFraming headers = .ok .none ↔
      headers.getAll .transferEncoding = [] ∧ headers.getAll .contentLength = []) ∧
    ((∃ error, parseFraming headers = .error error) ↔
      ¬ (EndsChunked (headers.getAll .transferEncoding) ∧ headers.getAll .contentLength = []) ∧
      (∀ length, ¬ (headers.getAll .transferEncoding = [] ∧
        FixedLength (headers.getAll .contentLength) length)) ∧
      ¬ (headers.getAll .transferEncoding = [] ∧ headers.getAll .contentLength = [])) ∧
    ∀ requestLine headerSection head, parseHead requestLine headerSection = .ok head →
      parseFraming head.headers = .ok head.framing := by
  have hchunked : parseFraming headers = .ok .chunked ↔
      EndsChunked (headers.getAll .transferEncoding) ∧ headers.getAll .contentLength = [] := by
    rw [parseFraming_eq_ok, ← parseTransferEncoding_true, ← parseContentLength_none]
    simp [and_comm]
  have hlength (length : ℕ) : parseFraming headers = .ok (.contentLength length) ↔
      headers.getAll .transferEncoding = [] ∧ FixedLength (headers.getAll .contentLength) length := by
    rw [parseFraming_eq_ok, ← parseTransferEncoding_false, ← parseContentLength_some]
    simp [and_comm]
  have hnone : parseFraming headers = .ok .none ↔
      headers.getAll .transferEncoding = [] ∧ headers.getAll .contentLength = [] := by
    rw [parseFraming_eq_ok, ← parseTransferEncoding_false, ← parseContentLength_none]
    simp [and_comm]
  refine ⟨hchunked, hlength, hnone, ?_, fun requestLine headerSection head h => ?_⟩
  · rw [← hchunked, ← hnone]
    simp only [← hlength]
    cases parseFraming headers with
    | error error => simp
    | ok framing => cases framing <;> simp
  · obtain ⟨-, -, -, -, -, hframing, -⟩ := parseHead_eq_ok h
    exact hframing

end

end Vhrn.Proxy
