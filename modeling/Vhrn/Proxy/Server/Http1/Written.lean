import Vhrn.Foundations.ChunkedCoding
import Vhrn.Proxy.Server.Http1.Body
import Vhrn.Proxy.Server.Http1.Framing
import Vhrn.Proxy.Server.Response

/-!
# Fields that are written

The fields of a message are written one to a line and read again by the next parser on the way. A value
that was read has no blanks around it (`Trimmed`), and what the proxy removes and adds leaves it so; such
fields are read back as they were (`parseFields_fieldLines`).
-/

namespace Vhrn.Proxy

variable [HttpCrate]

/-! ## Values without blanks around them -/

/-- No value of the map has blanks around it. -/
def Trimmed (headers : HeaderMap) : Prop :=
  ∀ name, ∀ value ∈ headers.getAll name, trimOws value.asBytes = value.asBytes

omit [HttpCrate] in
theorem trimOws_trimOws (value : Bytes) : trimOws (trimOws value) = trimOws value :=
  trimBy_eq_self head?_trimBy getLast?_trimBy

theorem trimmed_empty : Trimmed .empty := fun name value h => by
  rw [HeaderMap.getAll, HttpCrate.getAll_empty] at h
  cases h

variable {headers headers' : HeaderMap} {name : HeaderName} {value : HeaderValue}

theorem Trimmed.append (h : Trimmed headers) (hvalue : trimOws value.asBytes = value.asBytes) :
    Trimmed (headers.append name value) := fun k v hv => by
  rw [HeaderMap.getAll, HttpCrate.getAll_append] at hv
  split at hv
  · rcases List.mem_append.mp hv with hv | hv
    · exact h k v hv
    · rw [List.mem_singleton.mp hv, hvalue]
  · exact h k v hv

/-- Fields of one map among those of another. -/
theorem Trimmed.of_getAll (h : Trimmed headers)
    (hsub : ∀ k, headers'.getAll k = [] ∨ headers'.getAll k = headers.getAll k) : Trimmed headers' :=
  fun k v hv => by
    rcases hsub k with hnil | hsame
    · rw [hnil] at hv
      cases hv
    · exact h k v (hsame ▸ hv)

theorem Trimmed.removeAll (h : Trimmed headers) (names : List HeaderName) :
    Trimmed (removeAll headers names) :=
  h.of_getAll fun k => by
    rw [getAll_removeAll]
    split
    · exact .inl rfl
    · exact .inr rfl

theorem Trimmed.sanitize (h : Trimmed headers) (hs : sanitizeHopByHop headers = some headers') :
    Trimmed headers' := by
  obtain ⟨nominated, hnominated, -⟩ := Option.bind_eq_some_iff.mp hs
  refine h.of_getAll fun k => ?_
  rw [getAll_sanitizeHopByHop hnominated hs]
  split
  · exact .inl rfl
  · exact .inr rfl

/-- A field that is read is trimmed. -/
theorem Trimmed.appendFieldLine (h : Trimmed headers) {line : Bytes}
    (hline : appendFieldLine headers line = .ok headers') : Trimmed headers' := by
  unfold Vhrn.Proxy.appendFieldLine at hline
  split at hline
  · cases hline
  · split at hline
    · cases hline
    · split at hline
      · cases hline
      · simp only at hline
        split at hline
        · cases hline
        · split at hline
          · rename_i value' _ hvalue
            obtain rfl := Except.ok.inj hline
            refine h.append ?_
            rw [HeaderValue.asBytes, HttpCrate.valueFromBytes_eq_some hvalue]
            exact trimOws_trimOws _
          · cases hline

theorem Trimmed.parseFieldLines (h : Trimmed headers) {lines : List Bytes}
    (hlines : parseFieldLines headers lines = .ok headers') : Trimmed headers' := by
  induction lines generalizing headers with
  | nil => exact Except.ok.inj hlines ▸ h
  | cons line lines ih =>
    unfold Vhrn.Proxy.parseFieldLines at hlines
    split at hlines
    · split at hlines
      · exact Except.ok.inj hlines ▸ h
      · cases hlines
    · cases hnext : Vhrn.Proxy.appendFieldLine headers line with
      | error error =>
        rw [hnext] at hlines
        cases hlines
      | ok next =>
        rw [hnext] at hlines
        exact ih (h.appendFieldLine hnext) hlines

/-- **The fields of a head are trimmed.** -/
theorem trimmed_parseFields {headerSection : Bytes} (h : parseFields headerSection = .ok headers) :
    Trimmed headers := by
  unfold parseFields at h
  split at h
  · cases h
  · exact trimmed_empty.parseFieldLines h

/-- **The trailers of a body are trimmed.** -/
theorem trimmed_trailers {decoder : BodyDecoder} {content : Bytes} {trailers : HeaderMap} {rest : Bytes}
    (h : Trimmed decoder.trailerHeaders)
    (hbody : (decoder.bodyOfContent content).ending = .ok (some trailers, rest)) : Trimmed trailers := by
  fun_induction BodyDecoder.bodyOfContent decoder content
  case case6 ih => exact ih h (by simpa using hbody)
  case case8 ih | case11 ih => exact ih h hbody
  case case14 decoder _ _ _ _ _ _ _ trailers' =>
    have hsome := (Prod.mk.inj (Except.ok.inj hbody)).1
    split at hsome
    · cases hsome
    · exact Option.some.inj hsome ▸ h
  case case16 happend ih => exact ih (h.appendFieldLine happend) hbody
  all_goals cases hbody

/-! ## Lines that are written -/

omit [HttpCrate] in
/-- A line of its own comes first. -/
theorem crlfLines_line {line : Bytes} (h : 13 ∉ line) (rest : Bytes) :
    crlfLines (line ++ crlf ++ rest) = (line :: (crlfLines rest).1, (crlfLines rest).2) := by
  induction line with
  | nil => rfl
  | cons b line ih =>
    have hb : b ≠ 13 := fun hb => h (hb ▸ List.mem_cons_self)
    have hrest := ih fun hmem => h (List.mem_cons_of_mem _ hmem)
    rw [List.cons_append, List.cons_append, crlfLines, hrest]
    rintro _ rfl
    exact absurd rfl hb

theorem cr_not_mem_value (value : HeaderValue) : 13 ∉ value.asBytes := fun hmem =>
  absurd (List.all_eq_true.mp value.all_fieldOctet 13 hmem) (by decide)

theorem cr_not_mem_name (name : HeaderName) : 13 ∉ name.asStr :=
  (ChunkedCoding.not_mem_of_token name.validToken_asStr).1

/-- A field as it stands on its line. -/
def fieldText (field : HeaderName × HeaderValue) : Bytes :=
  field.1.asStr ++ ascii ": " ++ field.2.asBytes

theorem fieldLine_eq (field : HeaderName × HeaderValue) : fieldLine field = fieldText field ++ crlf :=
  rfl

theorem cr_not_mem_fieldText (field : HeaderName × HeaderValue) : 13 ∉ fieldText field := by
  simp only [fieldText, List.mem_append, not_or]
  exact ⟨⟨cr_not_mem_name _, by decide⟩, cr_not_mem_value _⟩

omit [HttpCrate] in
/-- No octet of a token starts a folded line or ends a name, and no octet of a value is a control. -/
theorem octet_written (b : UInt8) :
    (tokenOctet b = true → isOws b = false ∧ Ascii.isWhitespace b = false) ∧
      (fieldOctet b = true → ((b < 0x20 && b != 9) || b == 0x7F) = false) := by
  revert b; exact forall_byte (by decide +kernel)

/-- **A field that is written is read back.** -/
theorem appendFieldLine_fieldText (headers : HeaderMap)
    (h : trimOws value.asBytes = value.asBytes) :
    appendFieldLine headers (fieldText (name, value)) = .ok (headers.append name value) := by
  have htoken := name.validToken_asStr
  have hne := validToken_ne_nil htoken
  rw [validToken, Bool.and_eq_true, List.all_eq_true] at htoken
  obtain ⟨b, rest, hname⟩ := List.exists_cons_of_ne_nil hne
  have hhead : (fieldText (name, value)).head?.any isOws = false := by
    rw [fieldText]
    simp only [hname, List.cons_append, List.head?_cons, Option.any_some]
    exact ((octet_written b).1 (htoken.2 b (hname ▸ List.mem_cons_self))).1
  have hsplit : splitOnce 58 (fieldText (name, value)) = some (name.asStr, 32 :: value.asBytes) := by
    rw [splitOnce_eq_some]
    refine ⟨?_, (ChunkedCoding.not_mem_of_token name.validToken_asStr).2⟩
    rw [fieldText, show ascii ": " = [58, 32] by decide]
    simp
  have hlast : name.asStr.getLast?.any Ascii.isWhitespace = false := by
    rw [List.getLast?_eq_some_getLast hne, Option.any_some]
    exact ((octet_written _).1 (htoken.2 _ (List.getLast_mem hne))).2
  have htrim : trimOws (32 :: value.asBytes) = value.asBytes := by
    have hframed : trimOws ([32] ++ value.asBytes ++ []) = value.asBytes :=
      trimBy_append (List.forall_mem_singleton.mpr rfl) (by simp) h
    rwa [List.append_nil] at hframed
  have hvalid : (value.asBytes.any fun byte => (byte < 0x20 && byte != 9) || byte == 0x7F) = false :=
    List.any_eq_false.mpr fun b hb => Bool.not_eq_true _ ▸
      (octet_written b).2 (List.all_eq_true.mp value.all_fieldOctet b hb)
  unfold appendFieldLine
  rw [if_neg (by rw [hhead]; exact Bool.false_ne_true), hsplit]
  simp only [htrim, hvalid, hlast, HeaderName.fromBytes_asStr, HeaderValue.fromBytes_asBytes]
  simp [hne]

/-! ## Sections that are written -/

/-- A map with the given fields. -/
def ofFields (fields : List (HeaderName × HeaderValue)) (headers : HeaderMap) : HeaderMap :=
  fields.foldl (fun headers field => headers.append field.1 field.2) headers

theorem getAll_ofFields (fields : List (HeaderName × HeaderValue)) (headers : HeaderMap)
    (k : HeaderName) : (ofFields fields headers).getAll k = headers.getAll k ++ valuesOf k fields := by
  induction fields generalizing headers with
  | nil => exact (List.append_nil _).symm
  | cons field fields ih =>
    rw [ofFields, List.foldl_cons, ← ofFields, ih, HeaderMap.getAll, HttpCrate.getAll_append]
    unfold valuesOf
    rw [List.filter_cons]
    by_cases hk : k = field.1
    · simp [hk]
    · simp [hk, Ne.symm hk]

omit [HttpCrate] in
theorem crlfLines_end : crlfLines crlf = ([[]], []) := rfl

/-- The lines of a section of written fields. -/
theorem crlfLines_fields (fields : List (HeaderName × HeaderValue)) :
    crlfLines ((fields.map fieldLine).flatten ++ crlf) = (fields.map fieldText ++ [[]], []) := by
  induction fields with
  | nil => exact crlfLines_end
  | cons field fields ih =>
    rw [List.map_cons, List.flatten_cons, List.append_assoc, fieldLine_eq,
      crlfLines_line (cr_not_mem_fieldText field), ih]
    rfl

theorem parseFieldLines_fields {fields : List (HeaderName × HeaderValue)}
    (h : ∀ field ∈ fields, trimOws field.2.asBytes = field.2.asBytes) (headers : HeaderMap) :
    parseFieldLines headers (fields.map fieldText ++ [[]]) = .ok (ofFields fields headers) := by
  induction fields generalizing headers with
  | nil => rfl
  | cons field fields ih =>
    have hne : (fieldText field).isEmpty = false := by
      rw [fieldText, List.isEmpty_eq_false_iff]
      simp [validToken_ne_nil field.1.validToken_asStr]
    rw [List.map_cons, List.cons_append, parseFieldLines, hne, if_neg Bool.false_ne_true,
      appendFieldLine_fieldText headers (h field List.mem_cons_self)]
    exact ih (fun f hf => h f (List.mem_cons_of_mem _ hf)) _

theorem Trimmed.fields (h : Trimmed headers) :
    ∀ field ∈ headers.fields, trimOws field.2.asBytes = field.2.asBytes :=
  fun field hfield => h field.1 field.2 (HeaderMap.mem_fields.mp hfield)

/-- **A section that is written is read back**: for each name the same values in the same order. -/
theorem parseFields_fieldLines (h : Trimmed headers) :
    ∃ parsed, parseFields (fieldLines headers ++ crlf) = .ok parsed ∧
      ∀ name, parsed.getAll name = headers.getAll name := by
  refine ⟨ofFields headers.fields .empty, ?_, fun name => ?_⟩
  · have hlines : (stripSuffix crlf (fieldLines headers ++ crlf)).isNone = false := by
      rw [stripSuffix_append]
      rfl
    rw [parseFields, hlines, if_neg Bool.false_ne_true, fieldLines, crlfLines_fields]
    exact parseFieldLines_fields h.fields _
  · rw [getAll_ofFields, HeaderMap.valuesOf_fields, HeaderMap.getAll, HttpCrate.getAll_empty,
      List.nil_append]

end Vhrn.Proxy
