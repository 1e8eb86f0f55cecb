import Vhrn.Proxy.Connect.OriginBody
import Vhrn.Proxy.Server.Http1.WrittenHead

/-!
# Response heads that are written

A response head is written as a status line, one line for each field and an empty line. The reader of
responses finds such a head in the stream, whatever follows it (`responseHeadOfContent_headText`), and reads
the version and the status of the line (`splitStatusLine_statusText`, `parseStatus_decimal`).
-/

namespace Vhrn.Proxy

/-! ## Heads of responses -/

section

variable {line : Bytes} {lines : List Bytes}

/-- The octets of a status line. -/
structure StatusLine (line : Bytes) : Prop where
  cr : 13 ∉ line
  lf : 10 ∉ line

variable [HttpCrate]

/-- **A response head that is written is read**: its line and its section, and what follows it. -/
theorem responseHeadOfContent_headText (hline : StatusLine line) (h : Lines lines) (method : Method)
    (rest : Bytes) :
    responseHeadOfContent method (headText line lines ++ rest) =
      if requestLineLimit < (line ++ crlf).length then .error .invalid
      else if headerSectionLimit < (sectionText lines).length then .error .headersTooLarge
      else (parseOriginResponseHead (line ++ crlf) (sectionText lines) method).map fun head =>
        (head, rest) := by
  have hcontent : headText line lines ++ rest = line ++ crlf ++ (sectionText lines ++ rest) :=
    List.append_assoc _ _ _
  have hfirst : (originLineSearch .invalid).ofContent requestLineLimit (headText line lines ++ rest) =
      if requestLineLimit < (line ++ crlf).length then .error .invalid
        else .ok (line ++ crlf).length := by
    have hfind : (originLineSearch .invalid).find (headText line lines ++ rest) =
        some (line ++ crlf).length := by
      rw [hcontent]
      exact lineEnd_line hline.cr _
    rw [Search.ofContent_of_find hfind]
    · rfl
    · rw [hcontent, List.take_left]
      have hends := validLineEndings_line hline.cr hline.lf none []
      rw [List.append_nil] at hends
      exact hends
  have hhead : (originHeadSearch (line ++ crlf).length).ofContent
      ((line ++ crlf).length + headerSectionLimit) (headText line lines ++ rest) =
        if headerSectionLimit < (sectionText lines).length then .error .headersTooLarge
          else .ok (headText line lines).length := by
    have hfind : (originHeadSearch (line ++ crlf).length).find (headText line lines ++ rest) =
        some (headText line lines).length := findHeadEnd_headText h line rest
    have hlength : (headText line lines).length = (line ++ crlf).length + (sectionText lines).length :=
      List.length_append
    rw [Search.ofContent_of_find hfind]
    · simp only [hlength, Nat.add_lt_add_iff_left]
      rfl
    · rw [List.take_left]
      exact validLineEndings_headText hline.cr hline.lf h
  unfold responseHeadOfContent
  rw [hfirst]
  by_cases hlongLine : requestLineLimit < (line ++ crlf).length
  · rw [if_pos hlongLine, if_pos hlongLine]
  · rw [if_neg hlongLine, if_neg hlongLine]
    simp only [hhead]
    by_cases hlong : headerSectionLimit < (sectionText lines).length
    · rw [if_pos hlong, if_pos hlong]
    · rw [if_neg hlong, if_neg hlong]
      simp only [List.take_left, List.drop_left]
      rw [headText, List.take_left, List.drop_left]
      cases parseOriginResponseHead (line ++ crlf) (sectionText lines) method with
      | error error => rfl
      | ok head => rfl

/-- A text is read as a head, whatever follows it, unless it is too long. -/
def ReadAsHead (method : Method) (text : Bytes) (head : OriginResponseHead) : Prop :=
  (∀ rest, responseHeadOfContent method (text ++ rest) = .ok (head, rest)) ∨
    requestLineLimit < text.length ∧
      ∀ rest, ∃ error, responseHeadOfContent method (text ++ rest) = .error error

/-- **A response head that is written with fields is one head**, unless it is too long. -/
theorem responseHeadOfContent_fields {headers : HeaderMap} {head : OriginResponseHead} {method : Method}
    (hline : StatusLine line)
    (hparse : parseOriginResponseHead (line ++ crlf) (fieldLines headers ++ crlf) method = .ok head) :
    ReadAsHead method (headText line (headers.fields.map fieldText)) head := by
  have hfound (rest : Bytes) :=
    responseHeadOfContent_headText hline (lines_fields headers.fields) method rest
  have hlength : (headText line (headers.fields.map fieldText)).length =
      (line ++ crlf).length + (fieldLines headers ++ crlf).length := by
    rw [headText, sectionText_fields, List.length_append]
  have hlimit : requestLineLimit ≤ headerSectionLimit := by decide
  rw [sectionText_fields, hparse] at hfound
  by_cases hlongLine : requestLineLimit < (line ++ crlf).length
  · simp only [if_pos hlongLine] at hfound
    exact .inr ⟨by omega, fun rest => ⟨_, hfound rest⟩⟩
  · simp only [if_neg hlongLine] at hfound
    by_cases hlong : headerSectionLimit < (fieldLines headers ++ crlf).length
    · simp only [if_pos hlong] at hfound
      exact .inr ⟨by omega, fun rest => ⟨_, hfound rest⟩⟩
    · simp only [if_neg hlong] at hfound
      exact .inl hfound

/-- A head that is read is read also when more follows. -/
theorem responseHeadOfContent_append {content rest : Bytes} {method : Method} {head : OriginResponseHead}
    (h : responseHeadOfContent method content = .ok (head, rest)) (more : Bytes) :
    responseHeadOfContent method (content ++ more) = .ok (head, rest ++ more) := by
  unfold responseHeadOfContent at h ⊢
  split at h
  · cases h
  · rename_i lineLength hline
    rw [Search.ofContent_append hline more]
    simp only at h ⊢
    split at h
    · cases h
    · rename_i headLength hhead
      have hle := (Search.ofContent_le hhead).2
      rw [Search.ofContent_append hhead more]
      simp only
      rw [List.take_append_of_le_length hle, List.drop_append_of_le_length hle]
      split at h
      · cases h
      · obtain ⟨rfl, rfl⟩ := Prod.mk.inj (Except.ok.inj h)
        rfl

/-! ## Status lines -/

/-- The status line of a response, without its end. -/
def statusText (version : Version) (status : StatusCode) : Bytes :=
  version.wire ++ 32 :: Numerals.decimal status ++ 32 :: (HttpCrate.canonicalReason status).getD []

theorem responseHead_eq (version : Version) (status : StatusCode) (headers : HeaderMap) :
    responseHead version status headers =
      headText (statusText version status) (headers.fields.map fieldText) := by
  rw [responseHead, headText, sectionText_fields, statusText, List.append_assoc _ (fieldLines headers)]

theorem visible_reason (status : StatusCode) :
    ∀ b ∈ (HttpCrate.canonicalReason status).getD [], visibleOctet b = true := by
  cases h : HttpCrate.canonicalReason status with
  | none => exact fun b hb => absurd hb List.not_mem_nil
  | some reason => exact List.all_eq_true.mp (HttpCrate.canonicalReason_visible h)

theorem statusLine_statusText (version : Version) (status : StatusCode) :
    StatusLine (statusText version status) := by
  have hplain {b : UInt8} (hdigit : Ascii.isDigit b = false) (hvisible : visibleOctet b = false)
      (hversion : ∀ version : Version, b ∉ version.wire) (hspace : b ≠ 32) :
      b ∉ statusText version status := by
    intro hmem
    simp only [statusText, List.mem_append, List.mem_cons] at hmem
    rcases hmem with (hmem | hmem | hmem) | hmem | hmem
    · exact hversion version hmem
    · exact hspace hmem
    · rw [Numerals.isDigit_of_mem_decimal hmem] at hdigit
      cases hdigit
    · exact hspace hmem
    · rw [visible_reason status b hmem] at hvisible
      cases hvisible
  exact ⟨hplain rfl rfl (fun version => by cases version <;> decide) (by decide),
    hplain rfl rfl (fun version => by cases version <;> decide) (by decide)⟩

theorem splitStatusLine_statusText (version : Version) (status : StatusCode) :
    splitStatusLine (statusText version status ++ crlf) = some (version,
      Numerals.decimal status ++ 32 :: (HttpCrate.canonicalReason status).getD []) := by
  cases version with
  | http10 =>
    have hstarts : statusText .http10 status = ascii "HTTP/1.0 " ++
        (Numerals.decimal status ++ 32 :: (HttpCrate.canonicalReason status).getD []) := by
      simp [statusText, Version.wire, ascii]
      rfl
    rw [splitStatusLine, stripSuffix_append, hstarts]
    simp only [bind, Option.bind, stripPrefix_append]
    rfl
  | http11 =>
    have hstarts : statusText .http11 status = ascii "HTTP/1.1 " ++
        (Numerals.decimal status ++ 32 :: (HttpCrate.canonicalReason status).getD []) := by
      simp [statusText, Version.wire, ascii]
      rfl
    have hother (text : Bytes) : stripPrefix (ascii "HTTP/1.0 ") (ascii "HTTP/1.1 " ++ text) = none := rfl
    rw [splitStatusLine, stripSuffix_append, hstarts]
    simp only [bind, Option.bind, stripPrefix_append, hother]
    rfl

omit [HttpCrate] in
theorem length_decimal {n : ℕ} (hle : 100 ≤ n) (hlt : n < 1000) : (Numerals.decimal n).length = 3 := by
  have hdigit := @Numerals.numeral_of_lt 10 (n / 10 / 10) (by omega)
  rw [Numerals.decimal, Numerals.numeral_of_ge (by decide) (by omega),
    Numerals.numeral_of_ge (by decide) (by omega), hdigit]
  rfl

omit [HttpCrate] in
theorem parseStatus_bounds {remainder : Bytes} {status : StatusCode}
    (h : parseStatus remainder = some status) : 100 ≤ status ∧ status ≤ 599 := by
  unfold parseStatus at h
  simp only at h
  split at h
  · cases h
  · split at h
    · cases h
    · rename_i hbounds
      obtain rfl := Option.some.inj h
      simp only [Bool.or_eq_true, decide_eq_true_eq, not_or, Nat.not_lt] at hbounds
      exact hbounds.symm

/-- **A status that is written is read.** -/
theorem parseStatus_decimal {status : ℕ} (hle : 100 ≤ status) (hlt : status ≤ 599) :
    parseStatus (Numerals.decimal status ++ 32 :: (HttpCrate.canonicalReason status).getD []) =
      some status := by
  have hlength := length_decimal hle (by omega)
  have htake (reason : Bytes) : (Numerals.decimal status ++ 32 :: reason).take 3 =
      Numerals.decimal status := by
    rw [← hlength, List.take_left]
  have hdrop (reason : Bytes) : (Numerals.decimal status ++ 32 :: reason).drop 4 = reason := by
    rw [show 4 = (Numerals.decimal status).length + 1 by rw [hlength], ← List.drop_drop,
      List.drop_left]
    rfl
  have hspace (reason : Bytes) : (Numerals.decimal status ++ 32 :: reason)[3]? = some 32 := by
    rw [← hlength, List.getElem?_append_right le_rfl]
    simp
  have hdigits : (Numerals.decimal status).all Ascii.isDigit = true :=
    List.all_eq_true.mpr fun b hb => Numerals.isDigit_of_mem_decimal hb
  have hreason : ((HttpCrate.canonicalReason status).getD []).any
      (fun byte => (byte < 0x20 && byte != 9) || byte == 0x7F) = false :=
    List.any_eq_false.mpr fun b hb => by
      rw [(octet_written b).2 (fieldOctet_of_visible b (visible_reason status b hb))]
      exact Bool.false_ne_true
  have hvalue : Numerals.value 10 (Numerals.decimal status) = status :=
    Numerals.value_numeral (by decide) (by decide) status
  unfold parseStatus
  simp only [htake, hdrop, hspace, hdigits, hreason, hvalue, List.length_append, List.length_cons, hlength]
  simp
  omega

end

end Vhrn.Proxy
