import Vhrn.Foundations.HttpCrate

/-!
# A reference HTTP library

`HttpCrate.reference` is an HTTP library whose names and values are octets that carry their validity and
whose header maps are lists of fields. A map that is built from the empty one keeps the fields of a name
together, where the first of them was.
-/

namespace Vhrn.Reference

/-! ## Names and values -/

theorem tokenOctet_toLower (b : UInt8) : tokenOctet (Ascii.toLower b) = tokenOctet b := by
  revert b; exact forall_byte (by decide +kernel)

theorem validToken_lower (bytes : Bytes) : validToken (lower bytes) = validToken bytes := by
  rw [validToken, validToken, lower, List.all_map, List.isEmpty_map]
  congr 2
  exact funext fun b => tokenOctet_toLower b

structure Name where
  text : Bytes
  token : validToken text = true
  bounded : text.length ≤ 65535
  lowered : lower text = text
  deriving DecidableEq

structure Value where
  text : Bytes
  valid : text.all fieldOctet = true
  deriving DecidableEq

def nameFromBytes (bytes : Bytes) : Option Name :=
  if h : validToken bytes = true ∧ bytes.length ≤ 65535 then
    some ⟨lower bytes, (validToken_lower bytes).trans h.1, (List.length_map _).trans_le h.2,
      lower_lower bytes⟩
  else none

def valueFromBytes (bytes : Bytes) : Option Value :=
  if h : bytes.all fieldOctet = true then some ⟨bytes, h⟩ else none

def valueFromStr (bytes : Bytes) : Option Value :=
  if bytes.all visibleOctet = true then valueFromBytes bytes else none

def valueToStr (value : Value) : Option Bytes :=
  if value.text.all visibleOctet then some value.text else none

/-! ## Maps -/

section

variable {N V : Type} [DecidableEq N]

abbrev Fields (N V : Type) := List (N × V)

theorem valuesOf_cons (k : N) (field : N × V) (fields : Fields N V) : valuesOf k (field :: fields) =
    if field.1 = k then field.2 :: valuesOf k fields else valuesOf k fields := by
  unfold valuesOf
  rw [List.filter_cons]
  by_cases h : field.1 = k <;> simp [h]

theorem valuesOf_append (k : N) (fields fields' : Fields N V) :
    valuesOf k (fields ++ fields') = valuesOf k fields ++ valuesOf k fields' := by
  rw [valuesOf, List.filter_append, List.map_append]
  rfl

theorem valuesOf_eq_nil {k : N} {fields : Fields N V} :
    valuesOf k fields = [] ↔ k ∉ fields.map Prod.fst := by
  rw [valuesOf, List.map_eq_nil_iff, List.filter_eq_nil_iff, List.mem_map]
  simp only [decide_eq_true_eq, not_exists, not_and]

/-- The fields with one more, after those of its name. -/
def appendField (name : N) (value : V) : Fields N V → Fields N V
  | [] => [(name, value)]
  | field :: fields =>
    if field.1 = name ∧ name ∉ fields.map Prod.fst then field :: (name, value) :: fields
    else field :: appendField name value fields

theorem valuesOf_appendField (name k : N) (value : V) (fields : Fields N V) :
    valuesOf k (appendField name value fields) =
      if k = name then valuesOf k fields ++ [value] else valuesOf k fields := by
  induction fields with
  | nil => by_cases h : k = name <;> simp [appendField, valuesOf, h, eq_comm]
  | cons field fields ih =>
    unfold appendField
    split
    · rename_i hlast
      rw [valuesOf_cons, valuesOf_cons, valuesOf_cons, hlast.1]
      by_cases h : k = name
      · subst h
        rw [valuesOf_eq_nil.mpr hlast.2]
        simp
      · simp [h, Ne.symm h]
    · rw [valuesOf_cons, valuesOf_cons, ih]
      by_cases hk : field.1 = k
      · rw [if_pos hk, if_pos hk]
        by_cases h : k = name <;> simp [h]
      · rw [if_neg hk, if_neg hk]

def removeField (name : N) (fields : Fields N V) : Fields N V :=
  fields.filter fun field => !decide (field.1 = name)

theorem valuesOf_removeField (name k : N) (fields : Fields N V) :
    valuesOf k (removeField name fields) = if k = name then [] else valuesOf k fields := by
  unfold valuesOf removeField
  rw [List.filter_filter]
  by_cases h : k = name
  · rw [if_pos h, List.filter_eq_nil_iff.mpr]
    · rfl
    · intro field _
      simp [h]
  · rw [if_neg h]
    congr 1
    refine List.filter_congr fun field _ => ?_
    by_cases hk : field.1 = k <;> simp [hk, h]

/-- The fields with one in the place of those of its name. -/
def insertField (name : N) (value : V) : Fields N V → Fields N V
  | [] => [(name, value)]
  | field :: fields =>
    if field.1 = name then (name, value) :: removeField name fields
    else field :: insertField name value fields

theorem valuesOf_insertField (name k : N) (value : V) (fields : Fields N V) :
    valuesOf k (insertField name value fields) = if k = name then [value] else valuesOf k fields := by
  induction fields with
  | nil => by_cases h : k = name <;> simp [insertField, valuesOf, h, eq_comm]
  | cons field fields ih =>
    unfold insertField
    split
    · rename_i hname
      rw [valuesOf_cons, valuesOf_cons, valuesOf_removeField, hname]
      by_cases h : k = name
      · simp [h]
      · simp [h, Ne.symm h]
    · rename_i hname
      rw [valuesOf_cons, valuesOf_cons, ih]
      by_cases h : k = name
      · subst h
        simp [hname]
      · simp [h]

/-- The fields with those of the second map in the place of those of their names. -/
def extendFields (fields fields' : Fields N V) : Fields N V :=
  fields.filter (fun field => !decide (field.1 ∈ fields'.map Prod.fst)) ++ fields'

theorem valuesOf_extendFields (fields fields' : Fields N V) (k : N) :
    valuesOf k (extendFields fields fields') =
      if valuesOf k fields' = [] then valuesOf k fields else valuesOf k fields' := by
  rw [extendFields, valuesOf_append]
  by_cases hk : k ∈ fields'.map Prod.fst
  · have hne : valuesOf k fields' ≠ [] := fun h => valuesOf_eq_nil.mp h hk
    rw [if_neg hne]
    suffices hnone : valuesOf k (fields.filter fun field =>
        !decide (field.1 ∈ fields'.map Prod.fst)) = [] by
      rw [hnone, List.nil_append]
    refine valuesOf_eq_nil.mpr fun hmem => ?_
    obtain ⟨field, hfield, rfl⟩ := List.mem_map.mp hmem
    have habsent := (List.mem_filter.mp hfield).2
    rw [decide_eq_true hk] at habsent
    cases habsent
  · have hnil := valuesOf_eq_nil.mpr hk
    rw [if_pos hnil, hnil, List.append_nil]
    unfold valuesOf
    rw [List.filter_filter]
    congr 1
    refine List.filter_congr fun field _ => ?_
    by_cases h : field.1 = k
    · subst h
      simpa using hk
    · simp [h]

/-- The fields with each name left out where it is the name before. -/
def omitNames : Option N → Fields N V → List (Option N × V)
  | _, [] => []
  | previous, (name, value) :: fields =>
    (if previous = some name then none else some name, value) :: omitNames (some name) fields

theorem fillNames_omitNames (previous : Option N) (fields : Fields N V) :
    fillNames previous (omitNames previous fields) = fields := by
  induction fields generalizing previous with
  | nil => cases previous <;> rfl
  | cons field fields ih =>
    obtain ⟨name, value⟩ := field
    unfold omitNames
    by_cases h : previous = some name
    · subst h
      rw [if_pos rfl, fillNames, ih]
    · rw [if_neg h, fillNames, ih]

end

/-! ## Authorities -/

/-- The octets of a URI, with the percent sign apart. -/
def uriOctet (b : UInt8) : Bool :=
  Ascii.isAlnum b || [33, 36, 38, 39, 40, 41, 42, 43, 44, 45, 46, 58, 59, 61, 64, 91, 93, 95, 126].contains b

structure AuthorityState where
  colons : ℕ
  opened : Bool
  closed : Bool
  percent : Bool
  afterAt : Bool

def maxColons : ℕ := 8

def authorityStep (s : AuthorityState) (b : UInt8) : Option AuthorityState :=
  if b = 58 then
    if maxColons ≤ s.colons then none else some { s with colons := s.colons + 1, afterAt := false }
  else if b = 91 then
    if s.percent || s.opened then none else some { s with opened := true, afterAt := false }
  else if b = 93 then
    if !s.opened || s.closed then none
    else some { colons := 0, opened := s.opened, closed := true, percent := false, afterAt := false }
  else if b = 64 then some { s with colons := 0, percent := false, afterAt := true }
  else if b = 37 then some { s with percent := true, afterAt := false }
  else if uriOctet b then some { s with afterAt := false }
  else none

def isAuthority (bytes : Bytes) : Bool :=
  !bytes.isEmpty &&
    match bytes.foldlM authorityStep ⟨0, false, false, false, false⟩ with
    | some s => s.opened == s.closed && decide (s.colons ≤ 1) && !s.afterAt && !s.percent
    | none => false

theorem uriOctet_of_literal (b : UInt8) : literalOctet b = true →
    b ≠ 91 ∧ b ≠ 93 ∧ b ≠ 64 ∧ (b ≠ 37 → uriOctet b = true) := by
  revert b; exact forall_byte (by decide +kernel)

theorem literalOctet_of_digit (b : UInt8) : Ascii.isDigit b = true →
    literalOctet b = true ∧ b ≠ 37 ∧ b ≠ 58 := by
  revert b; exact forall_byte (by decide +kernel)

theorem literalOctet_of_host (b : UInt8) : hostOctet b = true →
    literalOctet b = true ∧ b ≠ 37 ∧ b ≠ 58 := by
  revert b; exact forall_byte (by decide +kernel)

/-- What the octets of an IPv6 literal do to the state. -/
theorem foldlM_literal {literal : Bytes} (h : literal.all literalOctet = true) {s : AuthorityState}
    (hat : s.afterAt = false) (hcolons : s.colons + literal.count 58 ≤ maxColons) :
    ∃ percent, (37 ∉ literal → percent = s.percent) ∧ literal.foldlM authorityStep s =
      some { s with colons := s.colons + literal.count 58, percent } := by
  induction literal generalizing s with
  | nil => exact ⟨s.percent, fun _ => rfl, rfl⟩
  | cons b literal ih =>
    rw [List.all_cons, Bool.and_eq_true] at h
    obtain ⟨hopen, hclose, hatsign, huri⟩ := uriOctet_of_literal b h.1
    rw [List.count_cons] at hcolons ⊢
    by_cases hcolon : b = 58
    · subst hcolon
      rw [if_pos (by rfl)] at hcolons ⊢
      obtain ⟨percent, hpercent, hfold⟩ := ih h.2
        (s := { s with colons := s.colons + 1, afterAt := false }) rfl (by simp only; omega)
      refine ⟨percent, fun hnot => hpercent fun hmem => hnot (List.mem_cons_of_mem _ hmem), ?_⟩
      have hstep : authorityStep s 58 = some { s with colons := s.colons + 1, afterAt := false } := by
        rw [authorityStep, if_pos rfl, if_neg (by omega)]
      rw [List.foldlM_cons, hstep]
      refine hfold.trans ?_
      simp only [hat, Nat.add_assoc, Nat.add_comm 1]
    · rw [if_neg (by simpa using hcolon)] at hcolons ⊢
      by_cases hpct : b = 37
      · subst hpct
        obtain ⟨percent, -, hfold⟩ := ih h.2
          (s := { s with percent := true, afterAt := false }) rfl hcolons
        refine ⟨percent, fun hnot => absurd List.mem_cons_self hnot, ?_⟩
        have hstep : authorityStep s 37 = some { s with percent := true, afterAt := false } := by
          simp [authorityStep]
        rw [List.foldlM_cons, hstep]
        refine hfold.trans ?_
        simp only [hat, Nat.add_zero]
      · obtain ⟨percent, hpercent, hfold⟩ := ih h.2 (s := { s with afterAt := false }) rfl hcolons
        refine ⟨percent, fun hnot => hpercent fun hmem => hnot (List.mem_cons_of_mem _ hmem), ?_⟩
        have hstep : authorityStep s b = some { s with afterAt := false } := by
          rw [authorityStep, if_neg hcolon, if_neg hopen, if_neg hclose, if_neg hatsign, if_neg hpct,
            if_pos (huri hpct)]
        rw [List.foldlM_cons, hstep]
        refine hfold.trans ?_
        simp only [hat, Nat.add_zero]

theorem literal_of_host {host : Bytes} (h : host.all hostOctet = true) :
    host.all literalOctet = true ∧ 37 ∉ host ∧ host.count 58 = 0 := by
  rw [List.all_eq_true] at h
  refine ⟨List.all_eq_true.mpr fun b hb => (literalOctet_of_host b (h b hb)).1,
    fun hmem => (literalOctet_of_host 37 (h 37 hmem)).2.1 rfl,
    List.count_eq_zero.mpr fun hmem => (literalOctet_of_host 58 (h 58 hmem)).2.2 rfl⟩

theorem literal_of_port {port : Bytes} (h : port.all Ascii.isDigit = true) :
    port.all literalOctet = true ∧ 37 ∉ port ∧ port.count 58 = 0 := by
  rw [List.all_eq_true] at h
  refine ⟨List.all_eq_true.mpr fun b hb => (literalOctet_of_digit b (h b hb)).1,
    fun hmem => (literalOctet_of_digit 37 (h 37 hmem)).2.1 rfl,
    List.count_eq_zero.mpr fun hmem => (literalOctet_of_digit 58 (h 58 hmem)).2.2 rfl⟩

/-- Octets without a colon and without an escape leave the state. -/
theorem foldlM_plain {text : Bytes} (h : text.all literalOctet = true ∧ 37 ∉ text ∧ text.count 58 = 0)
    {s : AuthorityState} (hat : s.afterAt = false) (hcolons : s.colons ≤ maxColons) :
    text.foldlM authorityStep s = some s := by
  obtain ⟨percent, hpercent, hfold⟩ := foldlM_literal h.1 hat (by rw [h.2.2]; exact hcolons)
  rw [hfold, hpercent h.2.1, h.2.2]
  rfl

/-- A port after its colon. -/
theorem foldlM_port {port : Bytes} (h : port.all Ascii.isDigit = true) {s : AuthorityState}
    (hat : s.afterAt = false) (hcolons : s.colons = 0) :
    (58 :: port).foldlM authorityStep s = some { s with colons := 1 } := by
  have hstep : authorityStep s 58 = some { s with colons := 1, afterAt := false } := by
    rw [authorityStep, if_pos rfl, hcolons]
    rfl
  rw [List.foldlM_cons, hstep]
  refine (foldlM_plain (literal_of_port h) rfl (by decide : 1 ≤ maxColons)).trans ?_
  rw [hat]

theorem isAuthority_host {host : Bytes} (hne : host ≠ []) (h : host.all hostOctet = true) :
    isAuthority host = true := by
  rw [isAuthority, foldlM_plain (literal_of_host h) rfl (Nat.zero_le _)]
  simpa using hne

theorem isAuthority_hostPort {host port : Bytes} (h : host.all hostOctet = true)
    (hport : port.all Ascii.isDigit = true) : isAuthority (host ++ 58 :: port) = true := by
  rw [isAuthority, List.foldlM_append, foldlM_plain (literal_of_host h) rfl (Nat.zero_le _),
    Option.bind_eq_bind, Option.bind_some, foldlM_port hport rfl rfl]
  simp

/-- A literal in its brackets. -/
theorem foldlM_bracketed {literal : Bytes} (h : literal.all literalOctet = true)
    (hcount : literal.count 58 ≤ 8) :
    (91 :: (literal ++ [93])).foldlM authorityStep ⟨0, false, false, false, false⟩ =
      some ⟨0, true, true, false, false⟩ := by
  obtain ⟨percent, -, hfold⟩ := foldlM_literal h (s := ⟨0, true, false, false, false⟩) rfl
    (by rw [Nat.zero_add]; exact hcount)
  show (literal ++ [93]).foldlM authorityStep ⟨0, true, false, false, false⟩ = _
  rw [List.foldlM_append, hfold]
  rfl

theorem isAuthority_literal {literal : Bytes} (h : literal.all literalOctet = true)
    (hcount : literal.count 58 ≤ 8) : isAuthority (91 :: (literal ++ [93])) = true := by
  rw [isAuthority, foldlM_bracketed h hcount]
  rfl

theorem isAuthority_literalPort {literal port : Bytes} (h : literal.all literalOctet = true)
    (hcount : literal.count 58 ≤ 8) (hport : port.all Ascii.isDigit = true) :
    isAuthority (91 :: (literal ++ 93 :: 58 :: port)) = true := by
  have hsplit : 91 :: (literal ++ 93 :: 58 :: port) = 91 :: (literal ++ [93]) ++ 58 :: port := by simp
  rw [isAuthority, hsplit, List.foldlM_append, foldlM_bracketed h hcount, Option.bind_eq_bind,
    Option.bind_some, foldlM_port hport rfl rfl]
  simp

/-! ## Reasons -/

def reasons : List (ℕ × String) :=
  [(100, "Continue"), (101, "Switching Protocols"), (102, "Processing"), (103, "Early Hints"),
    (200, "OK"), (201, "Created"), (202, "Accepted"), (203, "Non Authoritative Information"),
    (204, "No Content"), (205, "Reset Content"), (206, "Partial Content"), (207, "Multi-Status"),
    (208, "Already Reported"), (226, "IM Used"), (300, "Multiple Choices"),
    (301, "Moved Permanently"), (302, "Found"), (303, "See Other"), (304, "Not Modified"),
    (305, "Use Proxy"), (307, "Temporary Redirect"), (308, "Permanent Redirect"),
    (400, "Bad Request"), (401, "Unauthorized"), (402, "Payment Required"), (403, "Forbidden"),
    (404, "Not Found"), (405, "Method Not Allowed"), (406, "Not Acceptable"),
    (407, "Proxy Authentication Required"), (408, "Request Timeout"), (409, "Conflict"),
    (410, "Gone"), (411, "Length Required"), (412, "Precondition Failed"),
    (413, "Payload Too Large"), (414, "URI Too Long"), (415, "Unsupported Media Type"),
    (416, "Range Not Satisfiable"), (417, "Expectation Failed"), (418, "I'm a teapot"),
    (421, "Misdirected Request"), (422, "Unprocessable Entity"), (423, "Locked"),
    (424, "Failed Dependency"), (425, "Too Early"), (426, "Upgrade Required"),
    (428, "Precondition Required"), (429, "Too Many Requests"),
    (431, "Request Header Fields Too Large"), (451, "Unavailable For Legal Reasons"),
    (500, "Internal Server Error"), (501, "Not Implemented"), (502, "Bad Gateway"),
    (503, "Service Unavailable"), (504, "Gateway Timeout"), (505, "HTTP Version Not Supported"),
    (506, "Variant Also Negotiates"), (507, "Insufficient Storage"), (508, "Loop Detected"),
    (510, "Not Extended"), (511, "Network Authentication Required")]

def canonicalReason (status : ℕ) : Option Bytes :=
  (reasons.find? fun reason => reason.1 == status).map fun reason => ascii reason.2

theorem reasons_visible : ∀ reason ∈ reasons, (ascii reason.2).all visibleOctet = true := by
  decide +kernel

theorem canonicalReason_visible {status : ℕ} {reason : Bytes}
    (h : canonicalReason status = some reason) : reason.all visibleOctet = true := by
  obtain ⟨entry, hentry, rfl⟩ := Option.map_eq_some_iff.mp h
  exact reasons_visible entry (List.mem_of_find?_eq_some hentry)

/-! ## Laws of names and values -/

theorem nameFromBytes_eq_some {bytes : Bytes} {name : Name} (h : nameFromBytes bytes = some name) :
    name.text = lower bytes ∧ validToken bytes = true := by
  unfold nameFromBytes at h
  split at h
  · rename_i hvalid
    obtain rfl := Option.some.inj h
    exact ⟨rfl, hvalid.1⟩
  · cases h

theorem nameFromBytes_isSome {bytes : Bytes} (h : validToken bytes = true)
    (hlength : bytes.length ≤ 65535) : (nameFromBytes bytes).isSome = true := by
  rw [nameFromBytes, dif_pos ⟨h, hlength⟩]
  rfl

theorem nameFromBytes_text (name : Name) : nameFromBytes name.text = some name := by
  obtain ⟨text, token, bounded, lowered⟩ := name
  rw [nameFromBytes, dif_pos ⟨token, bounded⟩]
  simp only [lowered]

theorem valueFromBytes_eq_some {bytes : Bytes} {value : Value} (h : valueFromBytes bytes = some value) :
    value.text = bytes := by
  unfold valueFromBytes at h
  split at h
  · obtain rfl := Option.some.inj h
    rfl
  · cases h

theorem valueFromBytes_isSome (bytes : Bytes) :
    (valueFromBytes bytes).isSome = bytes.all fieldOctet := by
  unfold valueFromBytes
  split
  · rename_i h
    exact h.symm
  · rename_i h
    exact (Bool.eq_false_iff.mpr h).symm

theorem valueFromBytes_text (value : Value) : valueFromBytes value.text = some value := by
  rw [valueFromBytes, dif_pos value.valid]

end Vhrn.Reference

namespace Vhrn

/-- Names and values as octets, maps as lists of fields. -/
@[reducible] def HttpCrate.reference : HttpCrate where
  HeaderName := Reference.Name
  HeaderValue := Reference.Value
  HeaderMap := Reference.Fields Reference.Name Reference.Value
  nameEq := inferInstance
  nameStr := Reference.Name.text
  nameFromBytes := Reference.nameFromBytes
  valueBytes := Reference.Value.text
  valueFromBytes := Reference.valueFromBytes
  valueFromStr := Reference.valueFromStr
  valueToStr := Reference.valueToStr
  empty := []
  append fields name value := Reference.appendField name value fields
  insert fields name value := Reference.insertField name value fields
  remove fields name := Reference.removeField name fields
  extend := Reference.extendFields
  getAll fields name := valuesOf name fields
  fields := id
  intoIter := Reference.omitNames none
  isMethod := validToken
  canonicalReason := Reference.canonicalReason
  isAuthority := Reference.isAuthority
  nameFromBytes_eq_some := Reference.nameFromBytes_eq_some
  nameFromBytes_isSome := Reference.nameFromBytes_isSome
  nameFromBytes_nameStr := Reference.nameFromBytes_text
  valueFromBytes_eq_some := Reference.valueFromBytes_eq_some
  valueFromBytes_isSome := Reference.valueFromBytes_isSome
  valueFromBytes_valueBytes := Reference.valueFromBytes_text
  valueFromStr_visible h := if_pos h
  valueToStr_eq _ := rfl
  getAll_empty _ := rfl
  getAll_append fields name value k := Reference.valuesOf_appendField name k value fields
  getAll_insert fields name value k := Reference.valuesOf_insertField name k value fields
  getAll_remove fields name k := Reference.valuesOf_removeField name k fields
  getAll_extend := Reference.valuesOf_extendFields
  valuesOf_fields _ _ := rfl
  intoIter_head fields := by cases fields <;> rfl
  valuesOf_intoIter fields k := by rw [Reference.fillNames_omitNames]
  isMethod_token h := h
  canonicalReason_visible := Reference.canonicalReason_visible
  isAuthority_host := Reference.isAuthority_host
  isAuthority_hostPort _ := Reference.isAuthority_hostPort
  isAuthority_literal := Reference.isAuthority_literal
  isAuthority_literalPort := Reference.isAuthority_literalPort

end Vhrn
