import Vhrn.Proxy.Server.Http1.Reader
import Vhrn.Proxy.Server.Http1.Written

/-!
# Heads that are written

A head is written as a first line, one line for each field and an empty line. A reader finds such a head in
the stream, whatever follows it: the line, the section and nothing else (`headOfContent_headText`). Only a
section that has become too long is refused.
-/

namespace Vhrn.Proxy

variable {line rest : Bytes}

/-! ## Ends that are written -/

theorem findCrlf_line (h : 13 ∉ line) (rest : Bytes) :
    findCrlf (line ++ crlf ++ rest) = some line.length := by
  induction line with
  | nil => rfl
  | cons b line ih =>
    have hb : b ≠ 13 := fun hb => h (hb ▸ List.mem_cons_self)
    rw [List.cons_append, List.cons_append, findCrlf, ih fun hmem => h (List.mem_cons_of_mem _ hmem)]
    · rfl
    · rintro _ rfl
      exact absurd rfl hb

theorem lineEnd_line (h : 13 ∉ line) (rest : Bytes) :
    lineEnd (line ++ crlf ++ rest) = some (line ++ crlf).length := by
  rw [lineEnd, findCrlf_line h, List.length_append]
  rfl

/-- No line end but the written one is seen in a line. -/
theorem validLineEndings_line (hcr : 13 ∉ line) (hlf : 10 ∉ line) (previous : Option UInt8)
    (rest : Bytes) :
    validLineEndingsFrom previous (line ++ crlf ++ rest) = validLineEndingsFrom (some 10) rest := by
  induction line generalizing previous with
  | nil => simp [crlf, validLineEndingsFrom]
  | cons b line ih =>
    have hb : b ≠ 13 := fun hb => hcr (hb ▸ List.mem_cons_self)
    have hb' : b ≠ 10 := fun hb => hlf (hb ▸ List.mem_cons_self)
    rw [List.cons_append, List.cons_append, validLineEndingsFrom,
      ih (fun hmem => hcr (List.mem_cons_of_mem _ hmem))
        fun hmem => hlf (List.mem_cons_of_mem _ hmem)]
    simp [hb, hb']

/-- The lines of a section, and the empty line after them. -/
def sectionText (lines : List Bytes) : Bytes := (lines.map (· ++ crlf)).flatten ++ crlf

/-- The lines hold no line end, and none of them is empty. -/
def Lines (lines : List Bytes) : Prop := ∀ line ∈ lines, 13 ∉ line ∧ 10 ∉ line ∧ line ≠ []

variable {lines : List Bytes}

theorem sectionText_cons (line : Bytes) (lines : List Bytes) :
    sectionText (line :: lines) = line ++ crlf ++ sectionText lines := by
  simp [sectionText]

theorem validLineEndings_section (h : Lines lines) (previous : Option UInt8) (rest : Bytes) :
    validLineEndingsFrom previous (sectionText lines ++ rest) = validLineEndingsFrom (some 10) rest := by
  induction lines generalizing previous with
  | nil => exact validLineEndings_line List.not_mem_nil List.not_mem_nil previous rest
  | cons line lines ih =>
    obtain ⟨hcr, hlf, -⟩ := h line List.mem_cons_self
    rw [sectionText_cons, List.append_assoc, validLineEndings_line hcr hlf,
      ih fun l hl => h l (List.mem_cons_of_mem _ hl)]

/-- An occurrence after some octets none of which may start it. -/
theorem findSeq_skip {pat : Bytes} {b : UInt8} (hpat : pat.head? = some b) (h : b ∉ line)
    (rest : Bytes) : findSeq pat (line ++ rest) = (findSeq pat rest).map (line.length + ·) := by
  induction line with
  | nil => simp
  | cons c line ih =>
    have hc : c ≠ b := fun hc => h (hc ▸ List.mem_cons_self)
    have hnot : ¬ pat <+: c :: (line ++ rest) := by
      rintro ⟨t, ht⟩
      obtain ⟨p, rfl⟩ : ∃ p, pat = b :: p := by
        cases pat with
        | nil => cases hpat
        | cons a p => exact ⟨p, by rw [Option.some.inj hpat]⟩
      exact hc (List.cons.inj ht).1.symm
    rw [List.cons_append, findSeq, if_neg hnot, ih fun hmem => h (List.mem_cons_of_mem _ hmem),
      Option.map_map]
    congr 1
    funext n
    show line.length + n + 1 = (c :: line).length + n
    rw [List.length_cons]
    omega

/-- A line that is not empty does not start with a line end. -/
theorem not_prefix_of_line (h : Lines (line :: lines)) (rest : Bytes) :
    ¬ crlf <+: sectionText (line :: lines) ++ rest := by
  obtain ⟨hcr, -, hne⟩ := h line List.mem_cons_self
  obtain ⟨b, tail, rfl⟩ := List.exists_cons_of_ne_nil hne
  rw [sectionText_cons]
  rintro ⟨t, ht⟩
  exact hcr ((List.cons.inj ht).1 ▸ List.mem_cons_self)

theorem findSeq_section (h : Lines (line :: lines)) (rest : Bytes) :
    (findSeq (crlf ++ crlf) (sectionText (line :: lines) ++ rest)).map (· + 4) =
      some (sectionText (line :: lines)).length := by
  induction lines generalizing line with
  | nil =>
    obtain ⟨hcr, -, -⟩ := h line List.mem_cons_self
    have hhead : (crlf ++ crlf).head? = some 13 := rfl
    have hfound : findSeq (crlf ++ crlf) (crlf ++ crlf ++ rest) = some 0 :=
      if_pos (List.prefix_append _ _)
    rw [sectionText_cons, show line ++ crlf ++ sectionText [] ++ rest = line ++ (crlf ++ crlf ++ rest) by
      simp [sectionText], findSeq_skip hhead hcr, hfound]
    simp [sectionText, crlf]
  | cons next lines ih =>
    obtain ⟨hcr, -, -⟩ := h line List.mem_cons_self
    have htail : Lines (next :: lines) := fun l hl => h l (List.mem_cons_of_mem _ hl)
    have hhead : (crlf ++ crlf).head? = some 13 := rfl
    have hnot : ¬ crlf ++ crlf <+: crlf ++ (sectionText (next :: lines) ++ rest) := by
      rw [List.prefix_append_right_inj]
      exact not_prefix_of_line htail rest
    have hnext : findSeq (crlf ++ crlf) (crlf ++ (sectionText (next :: lines) ++ rest)) =
        (findSeq (crlf ++ crlf) (sectionText (next :: lines) ++ rest)).map (2 + ·) := by
      rw [show crlf ++ (sectionText (next :: lines) ++ rest) =
        13 :: 10 :: (sectionText (next :: lines) ++ rest) from rfl] at hnot ⊢
      rw [findSeq, if_neg hnot, show 10 :: (sectionText (next :: lines) ++ rest) =
        [10] ++ (sectionText (next :: lines) ++ rest) from rfl,
        findSeq_skip hhead (by decide), Option.map_map]
      congr 1
      funext n
      show [10].length + n + 1 = 2 + n
      simp
      omega
    have hrest := ih htail
    rw [sectionText_cons, List.append_assoc, List.append_assoc, findSeq_skip hhead hcr, hnext]
    obtain ⟨m, hm, hlen⟩ := Option.map_eq_some_iff.mp hrest
    rw [hm]
    simp only [Option.map_some, List.length_append]
    rw [← hlen]
    simp [crlf]
    omega

/-- **A section ends with its empty line.** -/
theorem findSectionEnd_section (h : Lines lines) (rest : Bytes) :
    findSectionEnd (sectionText lines ++ rest) = some (sectionText lines).length := by
  rw [findSectionEnd_eq]
  cases lines with
  | nil => exact if_pos (List.prefix_append _ _)
  | cons line lines =>
    rw [if_neg (not_prefix_of_line h rest)]
    exact findSeq_section h rest

/-! ## Whole heads -/

/-- The octets of a head with the given first line and section. -/
def headText (line : Bytes) (lines : List Bytes) : Bytes := line ++ crlf ++ sectionText lines

theorem findHeadEnd_headText (h : Lines lines) (line rest : Bytes) :
    findHeadEnd (line ++ crlf).length (headText line lines ++ rest) =
      some (headText line lines).length := by
  rw [findHeadEnd, headText, List.append_assoc, List.drop_left, findSectionEnd_section h,
    @List.length_append _ (line ++ crlf)]
  rfl

theorem validLineEndings_headText (hcr : 13 ∉ line) (hlf : 10 ∉ line) (h : Lines lines) :
    validLineEndingsFrom none (headText line lines) = true := by
  have hsection := validLineEndings_section h (some 10) []
  rw [List.append_nil] at hsection
  rw [headText, validLineEndings_line hcr hlf, hsection]
  rfl

/-- The octets of a request line are no line ends. -/
theorem not_mem_requestLine (h : line.all requestLineOctet = true) : 13 ∉ line ∧ 10 ∉ line := by
  rw [List.all_eq_true] at h
  exact ⟨fun hmem => absurd (h 13 hmem) (by decide), fun hmem => absurd (h 10 hmem) (by decide)⟩

theorem validRequestLine_line (h : line.all requestLineOctet = true) :
    validRequestLine (line ++ crlf) = true := by
  obtain ⟨hcr, hlf⟩ := not_mem_requestLine h
  have hends := validLineEndings_line hcr hlf none []
  rw [List.append_nil] at hends
  rw [validRequestLine, hends, lineText_crlf, h]
  rfl

variable [HttpCrate]

/-- The lines of fields. -/
theorem lines_fields (fields : List (HeaderName × HeaderValue)) : Lines (fields.map fieldText) := by
  intro line hline
  obtain ⟨⟨name, value⟩, -, rfl⟩ := List.mem_map.mp hline
  refine ⟨cr_not_mem_fieldText _, ?_, ?_⟩
  · simp only [fieldText, List.mem_append, not_or]
    refine ⟨⟨fun hmem => ?_, by decide⟩, fun hmem => ?_⟩
    · exact absurd (validToken_octet name.validToken_asStr hmem) (by decide)
    · exact absurd (List.all_eq_true.mp value.all_fieldOctet 10 hmem) (by decide)
  · rw [fieldText]
    simp [validToken_ne_nil name.validToken_asStr]

theorem sectionText_fields (headers : HeaderMap) :
    sectionText (headers.fields.map fieldText) = fieldLines headers ++ crlf := by
  rw [sectionText, List.map_map]
  rfl

/-- **A request head that is written is read**: its line and its section, and what follows it. -/
theorem headOfContent_headText (hline : line.all requestLineOctet = true)
    (hfits : (line ++ crlf).length ≤ requestLineLimit) (h : Lines lines) (rest : Bytes) :
    headOfContent (headText line lines ++ rest) =
      (if headerSectionLimit < (sectionText lines).length then .error .headersTooLarge
        else (parseHead (line ++ crlf) (sectionText lines)).map fun head => some (head, rest),
        requestLineIsHead (line ++ crlf)) := by
  obtain ⟨hcr, hlf⟩ := not_mem_requestLine hline
  have hcontent : headText line lines ++ rest = line ++ crlf ++ (sectionText lines ++ rest) :=
    List.append_assoc _ _ _
  have hfirst : requestLineSearch.ofContent requestLineLimit (headText line lines ++ rest) =
      .ok (line ++ crlf).length := by
    have hfind : requestLineSearch.find (headText line lines ++ rest) = some (line ++ crlf).length := by
      rw [hcontent]
      exact lineEnd_line hcr _
    rw [Search.ofContent_of_find hfind, if_neg (Nat.not_lt.mpr hfits)]
    rw [hcontent, List.take_left]
    exact validRequestLine_line hline
  have hhead : (headSearch (line ++ crlf).length).ofContent
      ((line ++ crlf).length + headerSectionLimit) (headText line lines ++ rest) =
        if headerSectionLimit < (sectionText lines).length then .error .headersTooLarge
          else .ok (headText line lines).length := by
    have hfind : (headSearch (line ++ crlf).length).find (headText line lines ++ rest) =
        some (headText line lines).length := findHeadEnd_headText h line rest
    have hlength : (headText line lines).length = (line ++ crlf).length + (sectionText lines).length :=
      List.length_append
    rw [Search.ofContent_of_find hfind]
    · simp only [hlength, Nat.add_lt_add_iff_left]
      rfl
    · rw [List.take_left]
      exact validLineEndings_headText hcr hlf h
  have htake : (headText line lines ++ rest).take (line ++ crlf).length = line ++ crlf := by
    rw [hcontent, List.take_left]
  unfold headOfContent
  rw [hfirst]
  simp only [htake, hhead]
  by_cases hlong : headerSectionLimit < (sectionText lines).length
  · rw [if_pos hlong, if_pos hlong]
  · rw [if_neg hlong, if_neg hlong]
    simp only [List.take_left, List.drop_left]
    rw [headText, List.take_left, List.drop_left]
    cases parseHead (line ++ crlf) (sectionText lines) with
    | error error => rfl
    | ok head => rfl

/-- **A request head that is written with fields is one head**, unless its section is too long. -/
theorem headOfContent_fields {headers : HeaderMap} {head : RequestHead}
    (hline : line.all requestLineOctet = true) (hfits : (line ++ crlf).length ≤ requestLineLimit)
    (hparse : parseHead (line ++ crlf) (fieldLines headers ++ crlf) = .ok head) :
    let text := headText line (headers.fields.map fieldText)
    let isHead := requestLineIsHead (line ++ crlf)
    (∀ rest, headOfContent (text ++ rest) = (.ok (some (head, rest)), isHead)) ∨
      headerSectionLimit < text.length ∧
        ∀ rest, headOfContent (text ++ rest) = (.error .headersTooLarge, isHead) := by
  intro text isHead
  have hfound (rest : Bytes) := headOfContent_headText hline hfits (lines_fields headers.fields) rest
  rw [sectionText_fields, hparse] at hfound
  by_cases hlong : headerSectionLimit < (fieldLines headers ++ crlf).length
  · simp only [if_pos hlong] at hfound
    have hlength : text.length = (line ++ crlf).length + (fieldLines headers ++ crlf).length := by
      show (headText line _).length = _
      rw [headText, sectionText_fields, List.length_append]
    exact .inr ⟨by omega, hfound⟩
  · simp only [if_neg hlong] at hfound
    exact .inl hfound

end Vhrn.Proxy
