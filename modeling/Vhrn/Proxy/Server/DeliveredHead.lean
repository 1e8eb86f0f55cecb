import Vhrn.Foundations.HttpReference
import Vhrn.Proxy.Connect.Exchange
import Vhrn.Proxy.Connect.OutboundHead
import Vhrn.Proxy.Server.Persistence
import Vhrn.Proxy.Server.WrittenResponse

/-!
# The response heads that a client reads

The head of a response that is passed on, read by the grammar that the proxy reads responses with. Its
status is that of the origin, its fields are those that are not hop-by-hop, and the framing and the end of
the connection that it announces are the ones that the proxy then acts on. The head of an interim response
announces neither (`delivered_head`).
-/

namespace Vhrn.Proxy

section

variable [HttpCrate]

/-! ## Fields -/

variable {version : Version} {response : OriginResponseHead} {headers : HeaderMap}
  {nominated : List HeaderName}

/-- The transfer codings of a response that goes on to a client. -/
def forwardedCodings (version : Version) (response : OriginResponseHead) : List HeaderValue :=
  match version with
  | .http10 => []
  | .http11 => response.headers.getAll .transferEncoding ++
    if response.transferCoding = .finalNonChunked ∧ response.framing ≠ .none then [chunkedValue] else []

/-- **The fields that go on to a client**, for each name. -/
theorem getAll_forwarded (h : forwardResponseHead version response = some (headers, nominated))
    (name : HeaderName) : headers.getAll name =
      if name = .transferEncoding then forwardedCodings version response
      else if name = .via then passing response.headers nominated .via ++ [viaValue response.version]
      else passing response.headers nominated name := by
  obtain ⟨-, hnominated, -, sanitized, hsanitized, rfl⟩ := forwardResponseHead_eq_some h
  obtain ⟨-, ⟨-, hvia, -⟩, -⟩ := written_names
  have hpassing (name : HeaderName) : sanitized.getAll name = passing response.headers nominated name :=
    (getAll_sanitizeHopByHop hnominated hsanitized name).trans (passing_eq _ _ _).symm
  have hhop : passing response.headers nominated .transferEncoding = [] := by
    rw [passing_eq, if_pos (.inr (.inr (by simp [fixedHopHeaders])))]
  have hframed : (framedHeaders version response sanitized).getAll name =
      if name = .transferEncoding then forwardedCodings version response
      else passing response.headers nominated name := by
    cases version with
    | http10 =>
      rw [framedHeaders, hpassing]
      by_cases hname : name = .transferEncoding
      · rw [if_pos hname, hname, hhop, forwardedCodings]
      · rw [if_neg hname]
    | http11 =>
      unfold framedHeaders forwardedCodings
      simp only
      split
      · rw [HeaderMap.getAll, HttpCrate.getAll_append, ← HeaderMap.getAll, getAll_foldl_append, hpassing]
        by_cases hname : name = .transferEncoding
        · simp [hname, hhop]
        · simp [hname]
      · rw [getAll_foldl_append, hpassing]
        by_cases hname : name = .transferEncoding
        · simp [hname, hhop]
        · simp [hname]
  rw [getAll_appendVia, hframed]
  by_cases hname : name = .via
  · simp [hname, hvia]
  · simp [hname]

/-- A response for a client that knows no transfer codings. -/
def strippedHeaders (version : Version) (headers : HeaderMap) : HeaderMap :=
  if version = .http10 then headers.remove .transferEncoding else headers

/-- A response whose body is written in chunks says so. -/
def codedHeaders (chunked : Bool) (headers : HeaderMap) : HeaderMap :=
  if chunked && !headers.contains .transferEncoding then headers.insert .transferEncoding chunkedValue
  else headers

/-- What a client is told of its connection. -/
def connectionValues (version : Version) (close : Bool) : List HeaderValue :=
  if close then [closeValue] else if version = .http10 then [keepAliveValue] else []

theorem getAll_strippedHeaders (version : Version) (headers : HeaderMap) (name : HeaderName) :
    (strippedHeaders version headers).getAll name =
      if version = .http10 ∧ name = .transferEncoding then [] else headers.getAll name := by
  unfold strippedHeaders
  by_cases hversion : version = .http10
  · rw [if_pos hversion, HeaderMap.getAll, HttpCrate.getAll_remove]
    simp [hversion]
  · rw [if_neg hversion, if_neg fun h => hversion h.1]

theorem getAll_codedHeaders (chunked : Bool) (headers : HeaderMap) (name : HeaderName) :
    (codedHeaders chunked headers).getAll name =
      if name = .transferEncoding ∧ chunked = true ∧ headers.getAll .transferEncoding = [] then
        [chunkedValue]
      else headers.getAll name := by
  unfold codedHeaders
  by_cases hcoded : (chunked && !headers.contains .transferEncoding) = true
  · rw [if_pos hcoded, HeaderMap.getAll, HttpCrate.getAll_insert]
    rw [Bool.and_eq_true, HeaderMap.contains, Bool.not_not, List.isEmpty_iff] at hcoded
    simp [hcoded]
  · rw [if_neg hcoded]
    rw [Bool.and_eq_true, HeaderMap.contains, Bool.not_not, List.isEmpty_iff] at hcoded
    rw [if_neg fun h => hcoded h.2]

theorem getAll_prepareResponseHead (status : StatusCode) (headers : HeaderMap) (version : Version)
    (method : Method) (close : Bool) (name : HeaderName) :
    let prepared := prepareResponseHead status headers version method close
    prepared.headers.getAll name =
      if name = .connection ∧ connectionValues version prepared.close ≠ [] then
        connectionValues version prepared.close
      else (codedHeaders prepared.chunked (strippedHeaders version headers)).getAll name := by
  intro prepared
  have hheaders : prepared.headers =
      if prepared.close then
        (codedHeaders prepared.chunked (strippedHeaders version headers)).insert .connection closeValue
      else if version = .http10 then
        (codedHeaders prepared.chunked (strippedHeaders version headers)).insert .connection keepAliveValue
      else codedHeaders prepared.chunked (strippedHeaders version headers) := rfl
  rw [hheaders]
  unfold connectionValues
  split
  · rw [HeaderMap.getAll, HttpCrate.getAll_insert]
    simp
  · split
    · rw [HeaderMap.getAll, HttpCrate.getAll_insert]
      simp
    · simp

/-- How a response that goes on is written to the client. -/
def delivered (version : Version) (response : OriginResponseHead) (headers : HeaderMap) (method : Method)
    (close : Bool) : PreparedHead :=
  prepareResponseHead response.status (HeaderMap.empty.extend headers) version method close

/-- The transfer codings that a client gets. -/
def deliveredCodings (version : Version) (response : OriginResponseHead) (chunked : Bool) :
    List HeaderValue :=
  if chunked = true ∧ forwardedCodings version response = [] then [chunkedValue]
  else forwardedCodings version response

/-- The values of a name that a client gets. -/
def deliveredValues (version : Version) (response : OriginResponseHead) (nominated : List HeaderName)
    (prepared : PreparedHead) (name : HeaderName) : List HeaderValue :=
  if name = .connection then connectionValues version prepared.close
  else if name = .transferEncoding then deliveredCodings version response prepared.chunked
  else if name = .via then passing response.headers nominated .via ++ [viaValue response.version]
  else passing response.headers nominated name

/-- What is decided about a response, and the fields that are written. -/
structure Prepared (version : Version) (response : OriginResponseHead) (nominated : List HeaderName)
    (method : Method) (close : Bool) (prepared : PreparedHead) : Prop where
  allowed : prepared.bodyAllowed = bodyAllowed method response.status
  chunked : prepared.chunked = (bodyAllowed method response.status &&
    (passing response.headers nominated .contentLength).isEmpty && version == .http11)
  close : prepared.close = (close || (!prepared.chunked && bodyAllowed method response.status &&
    (passing response.headers nominated .contentLength).isEmpty))
  fields : ∀ name, prepared.headers.getAll name = deliveredValues version response nominated prepared name
  head : prepared.head = responseHead version response.status prepared.headers

theorem prepared_delivered (h : forwardResponseHead version response = some (headers, nominated))
    (method : Method) (close : Bool) :
    Prepared version response nominated method close (delivered version response headers method close) := by
  obtain ⟨-, ⟨hvia, -, hvia', -⟩, ⟨hlength, hlength'⟩, hcodings, -⟩ := written_names
  have hstripped (name : HeaderName) :
      (strippedHeaders version (HeaderMap.empty.extend headers)).getAll name = headers.getAll name := by
    have hextend : (HeaderMap.empty.extend headers).getAll name = headers.getAll name := by
      rw [HeaderMap.getAll, HttpCrate.getAll_extend, HttpCrate.getAll_empty]
      split
      · rename_i hnil
        exact hnil.symm
      · rfl
    rw [getAll_strippedHeaders, hextend]
    split
    · rename_i hname
      rw [getAll_forwarded h, if_pos hname.2, hname.1, forwardedCodings]
    · rfl
  have hconnection : headers.getAll .connection = [] := by
    rw [getAll_forwarded h, if_neg (Ne.symm hcodings), if_neg (Ne.symm hvia'), passing, if_pos rfl]
  have hlengths : headers.getAll .contentLength = passing response.headers nominated .contentLength := by
    rw [getAll_forwarded h, if_neg hlength, if_neg (Ne.symm hvia)]
  have hchunked : (delivered version response headers method close).chunked =
      (bodyAllowed method response.status &&
        (passing response.headers nominated .contentLength).isEmpty && version == .http11) := by
    show (bodyAllowed method response.status && !(strippedHeaders version _).contains .contentLength && _) = _
    rw [HeaderMap.contains, hstripped, hlengths, Bool.not_not]
  have hclose : (delivered version response headers method close).close =
      (close || (!(delivered version response headers method close).chunked &&
        bodyAllowed method response.status &&
          (passing response.headers nominated .contentLength).isEmpty)) := by
    have hprepared : (delivered version response headers method close).close =
        (close || ((strippedHeaders version (HeaderMap.empty.extend headers)).get .connection).any
            (fun value => eqIgnoreCase value.asBytes (ascii "close")) ||
          (!(delivered version response headers method close).chunked &&
            bodyAllowed method response.status &&
              !(strippedHeaders version (HeaderMap.empty.extend headers)).contains .contentLength)) := rfl
    rw [hprepared, HeaderMap.contains, HeaderMap.get, hstripped, hstripped, hlengths, hconnection,
      Bool.not_not, List.head?_nil, Option.any_none, Bool.or_false]
  refine ⟨rfl, hchunked, hclose, fun name => ?_, rfl⟩
  rw [delivered, getAll_prepareResponseHead, ← delivered, getAll_codedHeaders, hstripped, hstripped,
    getAll_forwarded h, getAll_forwarded h, deliveredValues, deliveredCodings, if_pos rfl]
  by_cases hname : name = .connection
  · subst hname
    simp [Ne.symm hcodings, Ne.symm hvia', passing]
  · by_cases hname' : name = .transferEncoding
    · simp [hname', hcodings]
    · simp [hname, hname']

/-! ## Transfer codings -/

/-- What the parser asks of the codings of a response. -/
theorem parseOriginTransferEncoding_eq_ok {headers : HeaderMap} {coding : OriginTransferCoding} :
    parseOriginTransferEncoding headers = .ok coding ↔ ∃ values, transferCodings headers = .ok values ∧
      (values = [] ∧ coding = .absent ∨ values ≠ [] ∧
        (∀ value ∈ values, validTransferCoding value = true) ∧
        (∀ value ∈ values.dropLast, isChunked value = false) ∧
        (∀ value ∈ values, isChunked value = true → value.contains 59 = false) ∧
        coding = if values.getLast?.any isChunked then .finalChunked (decide (1 < values.length))
          else .finalNonChunked) := by
  unfold parseOriginTransferEncoding
  cases transferCodings headers with
  | error error => exact iff_of_false (fun h => by cases h) (by rintro ⟨_, h, -⟩; cases h)
  | ok values =>
    simp only [bind, Except.bind, Except.ok.injEq, exists_eq_left']
    by_cases hnil : values = []
    · subst hnil
      simp only [List.isEmpty_nil, ↓reduceIte, pure, Except.pure, Except.ok.injEq, true_and, ne_eq,
        not_true_eq_false, false_and, or_false]
      exact eq_comm
    · have hempty : values.isEmpty = false := List.isEmpty_eq_false_iff.mpr hnil
      simp only [hempty, Bool.false_eq_true, ↓reduceIte, hnil, false_and, ne_eq, not_false_eq_true,
        true_and, false_or]
      split
      · rename_i hrefused
        refine iff_of_false (fun h => by cases h) ?_
        rintro ⟨hvalid, -⟩
        obtain ⟨value, hv, hinvalid⟩ := List.any_eq_true.mp hrefused
        rw [hvalid value hv] at hinvalid
        cases hinvalid
      · rename_i hvalid
        simp only [List.any_eq_true, Bool.not_eq_true', not_exists, not_and, Bool.not_eq_false] at hvalid
        rw [and_iff_right hvalid]
        split
        · rename_i hrefused
          refine iff_of_false (fun h => by cases h) ?_
          rintro ⟨hothers, hbare, -⟩
          simp only [Bool.or_eq_true, List.any_eq_true, Bool.and_eq_true] at hrefused
          rcases hrefused with ⟨value, hv, hchunked⟩ | ⟨value, hv, hchunked, hsemicolon⟩
          · rw [hothers value hv] at hchunked
            cases hchunked
          · rw [hbare value hv hchunked] at hsemicolon
            cases hsemicolon
        · rename_i haccepted
          simp only [Bool.or_eq_true, List.any_eq_true, Bool.and_eq_true, not_or, not_exists, not_and,
            Bool.not_eq_true] at haccepted
          constructor
          · intro h
            exact ⟨haccepted.1, haccepted.2, (Except.ok.inj h).symm⟩
          · rintro ⟨-, -, rfl⟩
            rfl

/-- A response without codings has no field for them. -/
theorem parseOriginTransferEncoding_absent {headers : HeaderMap} :
    parseOriginTransferEncoding headers = .ok .absent ↔ headers.getAll .transferEncoding = [] := by
  rw [parseOriginTransferEncoding_eq_ok]
  constructor
  · rintro ⟨values, hvalues, ⟨hnil, -⟩ | ⟨-, -, -, -, hcoding⟩⟩
    · obtain ⟨members, hsplit, rfl⟩ := transferCodings_eq_ok.mp hvalues
      generalize headers.getAll .transferEncoding = found at hsplit ⊢
      cases hsplit with
      | nil => rfl
      | cons h _ =>
        rw [List.map_eq_nil_iff, List.flatten_cons, List.append_eq_nil_iff] at hnil
        exact absurd hnil.1 (splitQuoted_ne_nil h)
    · split at hcoding <;> cases hcoding
  · intro h
    refine ⟨[], transferCodings_eq_ok.mpr ⟨[], ?_, rfl⟩, .inl ⟨rfl, rfl⟩⟩
    rw [h]
    exact .nil

/-- One more coding, which is `chunked`. -/
theorem transferCodings_chunked {headers headers' : HeaderMap} {values : List Bytes}
    (hvalues : transferCodings headers = .ok values)
    (h : headers'.getAll .transferEncoding = headers.getAll .transferEncoding ++ [chunkedValue]) :
    transferCodings headers' = .ok (values ++ [ascii "chunked"]) := by
  obtain ⟨members, hmembers, rfl⟩ := transferCodings_eq_ok.mp hvalues
  refine transferCodings_eq_ok.mpr ⟨members ++ [[ascii "chunked"]], ?_, ?_⟩
  · rw [h]
    refine List.rel_append hmembers (.cons ?_ .nil)
    rw [chunkedValue, HeaderValue.asBytes_ofStatic]
    rfl
  · simp only [List.flatten_append, List.map_append]
    rfl

/-- The codings of a response as a client reads them. -/
def deliveredCoding (version : Version) (response : OriginResponseHead) (chunked : Bool) :
    OriginTransferCoding :=
  match version, response.transferCoding with
  | .http10, _ => .absent
  | .http11, .absent => if chunked then .finalChunked false else .absent
  | .http11, .finalChunked hasPrior => .finalChunked hasPrior
  | .http11, .finalNonChunked => if response.framing ≠ .none then .finalChunked true else .finalNonChunked

omit [HttpCrate] in
/-- A single `chunked`. -/
theorem coding_chunked : validTransferCoding (ascii "chunked") = true ∧
    isChunked (ascii "chunked") = true ∧ (ascii "chunked").contains 59 = false := by
  decide

theorem parse_chunked {headers : HeaderMap} (h : headers.getAll .transferEncoding = [chunkedValue]) :
    parseOriginTransferEncoding headers = .ok (.finalChunked false) := by
  obtain ⟨hvalid, hchunked, hbare⟩ := coding_chunked
  have hempty : HeaderMap.empty.getAll .transferEncoding = [] := by
    rw [HeaderMap.getAll, HttpCrate.getAll_empty]
  have hnone : transferCodings .empty = .ok [] :=
    transferCodings_eq_ok.mpr ⟨[], by rw [hempty]; exact .nil, rfl⟩
  have hvalues := transferCodings_chunked hnone (by rw [h, hempty]; rfl)
  refine parseOriginTransferEncoding_eq_ok.mpr ⟨_, hvalues, .inr ⟨by simp, ?_, ?_, ?_, ?_⟩⟩
  · exact fun value hv => List.mem_singleton.mp hv ▸ hvalid
  · exact fun value hv => absurd hv List.not_mem_nil
  · exact fun value hv _ => List.mem_singleton.mp hv ▸ hbare
  · show _ = if isChunked (ascii "chunked") = true then _ else _
    rw [if_pos hchunked]
    rfl

/-- After `chunked` is added to codings that do not end in it, they do. -/
theorem parse_concat_chunked {headers headers' : HeaderMap}
    (hcoding : parseOriginTransferEncoding headers = .ok .finalNonChunked)
    (h : headers'.getAll .transferEncoding = headers.getAll .transferEncoding ++ [chunkedValue]) :
    parseOriginTransferEncoding headers' = .ok (.finalChunked true) := by
  obtain ⟨hvalid', hchunked', hbare'⟩ := coding_chunked
  obtain ⟨values, hvalues, ⟨-, habsent⟩ | ⟨hne, hvalid, hothers, hbare, hlast⟩⟩ :=
    parseOriginTransferEncoding_eq_ok.mp hcoding
  · cases habsent
  · have hnone : ∀ value ∈ values, isChunked value = false := by
      split at hlast
      · cases hlast
      · rename_i hend
        intro value hv
        rw [← List.dropLast_append_getLast hne] at hv
        rcases List.mem_append.mp hv with hv | hv
        · exact hothers value hv
        · rw [List.mem_singleton.mp hv]
          rw [List.getLast?_eq_some_getLast hne, Option.any_some] at hend
          exact Bool.not_eq_true _ ▸ hend
    refine parseOriginTransferEncoding_eq_ok.mpr ⟨_, transferCodings_chunked hvalues h,
      .inr ⟨by simp, fun value hv => ?_, fun value hv => ?_, fun value hv hchunked => ?_, ?_⟩⟩
    · exact (List.mem_append.mp hv).elim (hvalid value) fun h => List.mem_singleton.mp h ▸ hvalid'
    · rw [List.dropLast_concat] at hv
      exact hnone value hv
    · rcases List.mem_append.mp hv with hv | hv
      · rw [hnone value hv] at hchunked
        cases hchunked
      · exact List.mem_singleton.mp hv ▸ hbare'
    · rw [List.getLast?_concat, Option.any_some, if_pos hchunked', List.length_append]
      have hpos := List.length_pos_iff.mpr hne
      congr 1
      exact (decide_eq_true (by simp only [List.length_singleton]; omega)).symm

/-- **The codings that a client gets are read as what was decided.** -/
theorem parse_deliveredCodings {parsed : HeaderMap} {chunked : Bool}
    (hcoding : parseOriginTransferEncoding response.headers = .ok response.transferCoding)
    (hchunked : chunked = true → version = .http11)
    (h : parsed.getAll .transferEncoding = deliveredCodings version response chunked) :
    parseOriginTransferEncoding parsed = .ok (deliveredCoding version response chunked) := by
  have hsame : parsed.getAll .transferEncoding = response.headers.getAll .transferEncoding →
      parseOriginTransferEncoding parsed = .ok response.transferCoding := fun hsame => by
    rw [← hcoding, parseOriginTransferEncoding, transferCodings, hsame]
    rfl
  cases version with
  | http10 =>
    have hnot : chunked = false := Bool.eq_false_iff.mpr fun h => by cases hchunked h
    rw [hnot] at h
    exact parseOriginTransferEncoding_absent.mpr h
  | http11 =>
    unfold deliveredCodings forwardedCodings at h
    unfold deliveredCoding
    cases hc : response.transferCoding with
    | absent =>
      have hnil := parseOriginTransferEncoding_absent.mp (hc ▸ hcoding)
      simp only [hc, hnil, reduceCtorEq, false_and, if_false, List.append_nil, and_true] at h
      cases chunked with
      | true => exact parse_chunked h
      | false => exact parseOriginTransferEncoding_absent.mpr h
    | finalChunked hasPrior =>
      have hne : response.headers.getAll .transferEncoding ≠ [] := fun hnil => by
        rw [parseOriginTransferEncoding_absent.mpr hnil] at hcoding
        rw [hc] at hcoding
        cases hcoding
      simp only [hc, reduceCtorEq, false_and, if_false, List.append_nil, hne, and_false] at h
      rw [hsame h, hc]
    | finalNonChunked =>
      have hne : response.headers.getAll .transferEncoding ≠ [] := fun hnil => by
        rw [parseOriginTransferEncoding_absent.mpr hnil] at hcoding
        rw [hc] at hcoding
        cases hcoding
      by_cases hframing : response.framing ≠ .none
      · simp only [hc, hframing, List.append_eq_nil_iff, hne, false_and, and_false, if_false,
          and_self, if_true, ne_eq, not_false_eq_true] at h ⊢
        exact parse_concat_chunked (hc ▸ hcoding) h
      · simp only [hc, hframing, List.append_nil, hne, and_false, if_false] at h ⊢
        rw [hsame h, hc]

/-! ## The head that is read -/

variable {method : Method} {close : Bool} {prepared : PreparedHead}

/-- The framing that a client reads. -/
def deliveredFraming (response : OriginResponseHead) (nominated : List HeaderName)
    (prepared : PreparedHead) : OriginBodyFraming :=
  if prepared.bodyAllowed = false then .none
  else if prepared.chunked then .chunked
  else if passing response.headers nominated .contentLength = [] then .closeDelimited
  else response.framing

/-- The head that a client reads of a response that goes on. -/
structure DeliveredAs (version : Version) (response : OriginResponseHead) (nominated : List HeaderName)
    (prepared : PreparedHead) (head : OriginResponseHead) : Prop where
  fields : ∀ name, head.headers.getAll name = deliveredValues version response nominated prepared name
  version : head.version = version
  status : head.status = response.status
  close : head.close = prepared.close
  framing : head.framing = deliveredFraming response nominated prepared
  unambiguous : head.headers.getAll .contentLength = [] ∨ head.headers.getAll .transferEncoding = []
  http10 : head.version = .http10 → head.headers.getAll .transferEncoding = []

/-- What the parser asks of the framing fields of a response. -/
theorem parseOriginResponseHead_framed {firstLine headerSection : Bytes} {head : OriginResponseHead}
    (h : parseOriginResponseHead firstLine headerSection method = .ok head) :
    ∃ length, parseContentLength head.headers = .ok length ∧
      parseOriginTransferEncoding head.headers = .ok head.transferCoding ∧
      (length.isSome = true → head.transferCoding = .absent) ∧
      (head.status.isInformational = true ∨ head.status = StatusCode.noContent →
        length = none ∧ head.transferCoding = .absent) := by
  unfold parseOriginResponseHead at h
  simp only [bind, Except.bind, throw, throwThe, MonadExceptOf.throw, pure, Except.pure] at h
  split at h
  · split at h
    · split at h
      · cases h
      split at h
      · cases h
      rename_i length hlength
      split at h
      · cases h
      rename_i coding hcoding
      split at h
      · cases h
      split at h
      · cases h
      rename_i hboth
      split at h
      · cases h
      rename_i hbodyless
      split at h
      · cases h
      obtain rfl := Except.ok.inj h
      refine ⟨length, invalidOrigin_eq_ok hlength, invalidOrigin_eq_ok hcoding, fun hsome => ?_,
        fun hstatus => ?_⟩
      · exact not_not.mp fun hne => hboth ⟨hsome, hne⟩
      · have hnot : ¬ (length.isSome = true ∨ coding ≠ .absent) := fun hframed =>
          hbodyless ⟨by simpa using hstatus, hframed⟩
        rw [not_or, not_not, Option.isSome_iff_ne_none, not_not] at hnot
        exact hnot
    · cases h
  · cases h

/-- The values that go on have no blanks around them. -/
theorem trimmed_delivered {headers : HeaderMap} (htrimmed : Trimmed response.headers)
    (h : ∀ name, headers.getAll name = deliveredValues version response nominated prepared name) :
    Trimmed headers := by
  have hpassing (name : HeaderName) {v : HeaderValue} (hv : v ∈ passing response.headers nominated name) :
      trimOws v.asBytes = v.asBytes := by
    rw [passing_eq] at hv
    split at hv
    · cases hv
    · exact htrimmed name v hv
  have hchunked {v : HeaderValue} (hv : v ∈ [chunkedValue]) : trimOws v.asBytes = v.asBytes := by
    rw [List.mem_singleton.mp hv, chunkedValue, HeaderValue.asBytes_ofStatic]
    decide
  have hforwarded {v : HeaderValue} (hv : v ∈ forwardedCodings version response) :
      trimOws v.asBytes = v.asBytes := by
    unfold forwardedCodings at hv
    split at hv
    · cases hv
    · rcases List.mem_append.mp hv with hv | hv
      · exact htrimmed _ v hv
      · split at hv
        · exact hchunked hv
        · cases hv
  intro name v hv
  rw [h] at hv
  unfold deliveredValues at hv
  split at hv
  · unfold connectionValues at hv
    split at hv
    · rw [List.mem_singleton.mp hv, closeValue, HeaderValue.asBytes_ofStatic]
      decide
    · split at hv
      · rw [List.mem_singleton.mp hv, keepAliveValue, HeaderValue.asBytes_ofStatic]
        decide
      · cases hv
  split at hv
  · unfold deliveredCodings at hv
    split at hv
    · exact hchunked hv
    · exact hforwarded hv
  split at hv
  · rcases List.mem_append.mp hv with hv | hv
    · exact hpassing _ hv
    · rw [List.mem_singleton.mp hv]
      cases response.version <;> rw [viaValue, HeaderValue.asBytes_ofStatic] <;> decide
  · exact hpassing _ hv

/-- The client is told whether the connection ends. -/
theorem closesAfter_connectionValues {headers : HeaderMap} (version : Version) (close : Bool)
    (h : headers.getAll .connection = connectionValues version close) :
    ∃ tokens, commaTokens headers .connection = .ok tokens ∧ closesAfter version tokens = close := by
  unfold commaTokens
  rw [h]
  unfold connectionValues
  cases close with
  | true =>
    rw [if_pos rfl, closeValue, List.flatMap_singleton, HeaderValue.asBytes_ofStatic]
    cases version <;> exact ⟨_, rfl, by decide⟩
  | false =>
    rw [if_neg Bool.false_ne_true]
    cases version with
    | http10 =>
      rw [if_pos rfl, keepAliveValue, List.flatMap_singleton, HeaderValue.asBytes_ofStatic]
      exact ⟨_, rfl, by decide⟩
    | http11 => exact ⟨[], rfl, rfl⟩

omit [HttpCrate] in
theorem bodyAllowed_eq (method : Method) (status : StatusCode) : bodyAllowed method status =
    !(method = Method.head || status.isInformational || status = StatusCode.noContent ||
      status = StatusCode.notModified) := by
  rw [bodyAllowed, Bool.eq_iff_iff]
  simp

omit [HttpCrate] in
theorem originFraming_bodyless {status : StatusCode} (h : bodyAllowed method status = false)
    (coding : OriginTransferCoding) (length : Option ℕ) (close : Bool) :
    originFraming method status coding length close = (.none, close) := by
  rw [bodyAllowed_eq, Bool.not_eq_false'] at h
  exact if_pos h

omit [HttpCrate] in
theorem originFraming_bodied {status : StatusCode} (h : bodyAllowed method status = true)
    (coding : OriginTransferCoding) (length : Option ℕ) (close : Bool) :
    originFraming method status coding length close = match coding, length with
      | .finalChunked _, _ => (.chunked, close)
      | .finalNonChunked, _ => (.closeDelimited, true)
      | .absent, some length => (.contentLength length, close)
      | .absent, none => (.closeDelimited, true) := by
  rw [bodyAllowed_eq, Bool.not_eq_true'] at h
  exact if_neg (by rw [h]; exact Bool.false_ne_true)

/-- The length that is left for a client. -/
theorem parse_deliveredLength {parsed : HeaderMap} {length : Option ℕ}
    (hlength : parseContentLength response.headers = .ok length)
    (h : parsed.getAll .contentLength = passing response.headers nominated .contentLength) :
    parseContentLength parsed =
      .ok (if passing response.headers nominated .contentLength = [] then none else length) := by
  split
  · rename_i hnil
    exact (parseContentLength_none parsed).mpr (h.trans hnil)
  · rename_i hne
    have hsame : parsed.getAll .contentLength = response.headers.getAll .contentLength := by
      rw [h]
      rw [passing_eq] at hne ⊢
      split
      · rename_i hhop
        exact absurd (if_pos hhop) hne
      · rfl
    rw [← hlength, parseContentLength, parseContentLength, hsame]

/-- **The framing that a client reads is what the proxy decided.** -/
theorem originFraming_delivered {length : Option ℕ} {ends : Bool}
    (hprepared : Prepared version response nominated method close prepared)
    (hlength : parseContentLength response.headers = .ok length)
    (habsent : length.isSome = true → response.transferCoding = .absent)
    (hframing : originFraming method response.status response.transferCoding length ends =
      (response.framing, response.close)) :
    originFraming method response.status (deliveredCoding version response prepared.chunked)
        (if passing response.headers nominated .contentLength = [] then none else length) prepared.close =
      (deliveredFraming response nominated prepared, prepared.close) := by
  have hchunked := hprepared.chunked
  have hclose := hprepared.close
  unfold deliveredFraming
  rw [hprepared.allowed]
  cases hallowed : bodyAllowed method response.status with
  | false => rw [originFraming_bodyless hallowed, if_pos rfl]
  | true =>
    rw [hallowed, Bool.true_and] at hchunked
    rw [hallowed, Bool.and_true] at hclose
    rw [originFraming_bodied hallowed] at hframing ⊢
    rw [if_neg Bool.true_eq_false.mp]
    cases hc : prepared.chunked with
    | true =>
      rw [hc, eq_comm, Bool.and_eq_true, List.isEmpty_iff, beq_iff_eq] at hchunked
      obtain ⟨hnil, rfl⟩ := hchunked
      rw [if_pos rfl]
      unfold deliveredCoding
      cases hcoding : response.transferCoding with
      | absent => rfl
      | finalChunked hasPrior => rfl
      | finalNonChunked =>
        rw [hcoding] at hframing
        have hbody : response.framing ≠ .none := by
          rw [← (Prod.mk.inj hframing).1]
          exact OriginBodyFraming.noConfusion
        simp only [ne_eq, hbody, not_false_eq_true, if_true]
    | false =>
      rw [hc, Bool.not_false, Bool.true_and] at hclose
      have hplain : length.isSome = true ∨ version = .http10 →
          deliveredCoding version response false = .absent := by
        rintro (hsome | rfl)
        · unfold deliveredCoding
          rw [habsent hsome]
          cases version <;> rfl
        · rfl
      rw [if_neg Bool.false_ne_true]
      by_cases hnil : passing response.headers nominated .contentLength = []
      · rw [hc, hnil, List.isEmpty_nil, Bool.true_and, eq_comm, beq_eq_false_iff_ne] at hchunked
        have hversion : version = .http10 := by
          cases version with
          | http10 => rfl
          | http11 => exact absurd rfl hchunked
        rw [hnil, List.isEmpty_nil, Bool.or_true] at hclose
        rw [if_pos hnil, if_pos hnil, hplain (.inr hversion), hclose]
      · rw [if_neg hnil, if_neg hnil]
        have hsome : length.isSome = true := by
          rw [Option.isSome_iff_ne_none]
          rintro rfl
          refine hnil ?_
          rw [passing_eq, (parseContentLength_none _).mp hlength, ite_self]
        obtain ⟨n, rfl⟩ := Option.isSome_iff_exists.mp hsome
        rw [habsent hsome] at hframing
        rw [hplain (.inl hsome), ← (Prod.mk.inj hframing).1]

/-- **What a client reads of the fields of a response that goes on.** -/
theorem parse_delivered {firstLine headerSection : Bytes} {written : HeaderMap}
    (hparse : parseOriginResponseHead firstLine headerSection method = .ok response)
    (hprepared : Prepared version response nominated method close prepared)
    (hwritten : ∀ name, written.getAll name = deliveredValues version response nominated prepared name) :
    ∃ head, parseOriginResponseHead (statusText version response.status ++ crlf)
        (fieldLines written ++ crlf) method = .ok head ∧
      DeliveredAs version response nominated prepared head := by
  obtain ⟨remainder, length, tokens, -, hstatus, hheaders, hlength, -, -, hframing⟩ :=
    parseOriginResponseHead_eq_ok hparse
  obtain ⟨length', hlength', hcoding, habsent, hbodyless⟩ := parseOriginResponseHead_framed hparse
  obtain rfl := Except.ok.inj (hlength.symm.trans hlength')
  obtain ⟨hle, hlt⟩ := parseStatus_bounds hstatus
  obtain ⟨parsed, hsection, hsame⟩ := parseFields_fieldLines
    (trimmed_delivered (trimmed_parseFields hheaders) hwritten)
  have hfields (name : HeaderName) : parsed.getAll name =
      deliveredValues version response nominated prepared name := (hsame name).trans (hwritten name)
  obtain ⟨-, ⟨hvia, -⟩, ⟨hne, hne'⟩, hne'', -⟩ := written_names
  have hparsedLength := @parse_deliveredLength _ response nominated parsed length hlength (by
    rw [hfields, deliveredValues, if_neg hne', if_neg hne, if_neg (Ne.symm hvia)])
  have hcodings : parsed.getAll .transferEncoding = deliveredCodings version response prepared.chunked :=
    (hfields _).trans (by rw [deliveredValues, if_neg hne'', if_pos rfl])
  have hchunked (hchunked : prepared.chunked = true) : version = .http11 := by
    rw [hprepared.chunked, Bool.and_eq_true, beq_iff_eq] at hchunked
    exact hchunked.2
  have hparsedCoding := parse_deliveredCodings hcoding hchunked hcodings
  obtain ⟨tokens', htokens, hends⟩ := closesAfter_connectionValues version prepared.close
    ((hfields _).trans (by rw [deliveredValues, if_pos rfl]))
  have hread := originFraming_delivered hprepared hlength habsent hframing
  have hplain (h : response.transferCoding = .absent) (hchunked : prepared.chunked = false) :
      deliveredCoding version response prepared.chunked = .absent := by
    unfold deliveredCoding
    rw [h, hchunked]
    cases version <;> rfl
  have hold : version = .http10 → deliveredCoding version response prepared.chunked = .absent := by
    rintro rfl
    rfl
  have hboth (hsome : (if passing response.headers nominated .contentLength = [] then none
      else length).isSome = true) : deliveredCoding version response prepared.chunked = .absent := by
    by_cases hnil : passing response.headers nominated .contentLength = []
    · rw [if_pos hnil] at hsome
      cases hsome
    · rw [if_neg hnil] at hsome
      refine hplain (habsent hsome) ?_
      rw [hprepared.chunked, List.isEmpty_eq_false_iff.mpr hnil, Bool.and_false, Bool.false_and]
  have hnone (hstatus : response.status.isInformational = true ∨ response.status = StatusCode.noContent) :
      (if passing response.headers nominated .contentLength = [] then none else length) = none ∧
        deliveredCoding version response prepared.chunked = .absent := by
    obtain ⟨hnolength, hnocoding⟩ := hbodyless hstatus
    refine ⟨by rw [hnolength, ite_self], hplain hnocoding ?_⟩
    have hnot : bodyAllowed method response.status = false := by
      rw [bodyAllowed_eq, Bool.not_eq_false']
      rcases hstatus with h | h <;> simp [h]
    rw [hprepared.chunked, hnot, Bool.false_and, Bool.false_and]
  refine ⟨{ version, status := response.status, headers := parsed,
            framing := deliveredFraming response nominated prepared
            transferCoding := deliveredCoding version response prepared.chunked, close := prepared.close },
    ?_, hfields, rfl, rfl, rfl, rfl, ?_, fun hversion => ?_⟩
  · unfold parseOriginResponseHead
    rw [splitStatusLine_statusText]
    simp only [parseStatus_decimal hle hlt, hsection, hparsedLength, hparsedCoding, htokens, hends, hread,
      invalidOrigin, Except.mapError, bind, Except.bind, pure, Except.pure, throw, throwThe,
      MonadExceptOf.throw]
    rw [if_neg fun h => h.2 (hold h.1), if_neg fun h => h.2 (hboth h.1), if_neg ?_]
    rintro ⟨hstatus, hframed⟩
    obtain ⟨hnolength, hnocoding⟩ := hnone (by simpa using hstatus)
    rw [hnolength, hnocoding] at hframed
    simp at hframed
  · by_cases hsome : (if passing response.headers nominated .contentLength = [] then none
        else length).isSome = true
    · exact .inr (parseOriginTransferEncoding_absent.mp (hboth hsome ▸ hparsedCoding))
    · rw [Option.isSome_iff_ne_none, not_not] at hsome
      exact .inl ((parseContentLength_none _).mp (hsome ▸ hparsedLength))
  · exact parseOriginTransferEncoding_absent.mp (hold hversion ▸ hparsedCoding)

/-- Where the parts of the head of a response stand in the stream. -/
theorem responseHeadOfContent_eq_ok {content followed : Bytes}
    (h : responseHeadOfContent method content = .ok (response, followed)) :
    ∃ firstLine headerSection, parseOriginResponseHead firstLine headerSection method = .ok response ∧
      headerSection.length ≤ headerSectionLimit := by
  unfold responseHeadOfContent at h
  split at h
  · cases h
  · rename_i lineLength hline
    split at h
    · cases h
    · rename_i headLength hhead
      simp only at h
      split at h
      · cases h
      · rename_i parsed hparse
        obtain ⟨rfl, -⟩ := Prod.mk.inj (Except.ok.inj h)
        obtain ⟨hfind, -⟩ := Search.ofContent_le hhead
        have hle := (originHeadSearch lineLength).finds.le hfind
        rw [List.length_take] at hle
        refine ⟨_, _, hparse, ?_⟩
        rw [List.length_drop, List.length_take]
        omega

/-- How the body of a response goes on: not at all, in chunks, with the length that the origin gave, or up
to the end of the connection. -/
inductive Reframed (version : Version) (response : OriginResponseHead) (prepared : PreparedHead) :
    OriginBodyFraming → Prop
  | none (hallowed : prepared.bodyAllowed = false) (horigin : response.framing = .none) :
      Reframed version response prepared .none
  | chunked (hallowed : prepared.bodyAllowed = true) (hchunked : prepared.chunked = true)
      (hversion : version = .http11) : Reframed version response prepared .chunked
  | contentLength {length : ℕ} (hallowed : prepared.bodyAllowed = true)
      (hchunked : prepared.chunked = false) (horigin : response.framing = .contentLength length) :
      Reframed version response prepared (.contentLength length)
  | closeDelimited (hallowed : prepared.bodyAllowed = true) (hchunked : prepared.chunked = false)
      (hversion : version = .http10) (hclose : prepared.close = true) :
      Reframed version response prepared .closeDelimited

theorem reframed_delivered {firstLine headerSection : Bytes}
    (hparse : parseOriginResponseHead firstLine headerSection method = .ok response)
    (hprepared : Prepared version response nominated method close prepared) :
    Reframed version response prepared (deliveredFraming response nominated prepared) := by
  obtain ⟨remainder, length, tokens, -, -, -, hlength, -, -, hframing⟩ :=
    parseOriginResponseHead_eq_ok hparse
  obtain ⟨length', hlength', -, habsent, -⟩ := parseOriginResponseHead_framed hparse
  obtain rfl := Except.ok.inj (hlength.symm.trans hlength')
  have hchunked := hprepared.chunked
  have hclose := hprepared.close
  unfold deliveredFraming
  cases hallowed : bodyAllowed method response.status with
  | false =>
    rw [originFraming_bodyless hallowed] at hframing
    have hnot := hprepared.allowed.trans hallowed
    rw [if_pos hnot]
    exact .none hnot (Prod.mk.inj hframing).1.symm
  | true =>
    rw [originFraming_bodied hallowed] at hframing
    rw [hallowed, Bool.true_and] at hchunked
    rw [hallowed, Bool.and_true] at hclose
    have hbodied := hprepared.allowed.trans hallowed
    rw [if_neg (by rw [hbodied]; exact Bool.true_eq_false.mp)]
    cases hc : prepared.chunked with
    | true =>
      rw [hc, eq_comm, Bool.and_eq_true, beq_iff_eq] at hchunked
      exact .chunked hbodied hc hchunked.2
    | false =>
      rw [if_neg Bool.false_ne_true]
      by_cases hnil : passing response.headers nominated .contentLength = []
      · rw [hc, hnil, List.isEmpty_nil, Bool.true_and, eq_comm, beq_eq_false_iff_ne] at hchunked
        rw [hc, hnil, List.isEmpty_nil, Bool.and_true, Bool.not_false, Bool.or_true] at hclose
        rw [if_pos hnil]
        refine .closeDelimited hbodied hc ?_ hclose
        cases version with
        | http10 => rfl
        | http11 => exact absurd rfl hchunked
      · rw [if_neg hnil]
        have hsome : length.isSome = true := by
          rw [Option.isSome_iff_ne_none]
          rintro rfl
          refine hnil ?_
          rw [passing_eq, (parseContentLength_none _).mp hlength, ite_self]
        obtain ⟨n, rfl⟩ := Option.isSome_iff_exists.mp hsome
        rw [habsent hsome] at hframing
        rw [← (Prod.mk.inj hframing).1]
        exact .contentLength hbodied hc (Prod.mk.inj hframing).1.symm

/-- A prepared head is read back, unless it is too long. -/
theorem read_delivered {content followed : Bytes} {prepared : PreparedHead}
    (hread : responseHeadOfContent method content = .ok (response, followed))
    (hprepared : Prepared version response nominated method close prepared) :
    ∃ head, DeliveredAs version response nominated prepared head ∧
      ReadAsHead method prepared.head head := by
  obtain ⟨firstLine, headerSection, hparse, -⟩ := responseHeadOfContent_eq_ok hread
  obtain ⟨head, hhead, hdelivered⟩ := parse_delivered hparse hprepared hprepared.fields
  rw [hprepared.head, responseHead_eq]
  exact ⟨head, hdelivered, responseHeadOfContent_fields (statusLine_statusText _ _) hhead⟩

/-- An interim response is told of without framing and without an end of the connection. -/
theorem read_informational {content followed : Bytes}
    (hread : responseHeadOfContent method content = .ok (response, followed))
    (hforward : forwardResponseHead .http11 response = some (headers, nominated))
    (hinterim : response.status.isInformational = true) :
    ∃ head, DeliveredAs .http11 response nominated (delivered .http11 response headers method false) head ∧
      head.framing = .none ∧
        ReadAsHead method (Exchange.informational .http11 response.status headers) head := by
  obtain ⟨firstLine, headerSection, hparse, -⟩ := responseHeadOfContent_eq_ok hread
  have hprepared := prepared_delivered hforward method false
  have hnot : bodyAllowed method response.status = false := by
    rw [bodyAllowed_eq, hinterim, Bool.or_true, Bool.true_or, Bool.true_or, Bool.not_true]
  have hchunked : (delivered .http11 response headers method false).chunked = false := by
    rw [hprepared.chunked, hnot, Bool.false_and, Bool.false_and]
  have hclose : (delivered .http11 response headers method false).close = false := by
    rw [hprepared.close, hnot, Bool.and_false, Bool.false_and, Bool.or_false]
  have hwritten (name : HeaderName) : headers.getAll name = deliveredValues .http11 response nominated
      (delivered .http11 response headers method false) name := by
    obtain ⟨-, ⟨-, -, hvia, -⟩, -, hne, -⟩ := written_names
    have hcodings : deliveredCodings .http11 response false = forwardedCodings .http11 response :=
      if_neg fun h => Bool.false_ne_true h.1
    rw [getAll_forwarded hforward, deliveredValues, hclose, hchunked, hcodings]
    by_cases hname : name = .connection
    · rw [hname, if_neg (Ne.symm hne), if_neg (Ne.symm hvia), if_pos rfl, passing, if_pos rfl]
      rfl
    · rw [if_neg hname]
  obtain ⟨head, hhead, hdelivered⟩ := parse_delivered hparse hprepared hwritten
  refine ⟨head, hdelivered, ?_, ?_⟩
  · rw [hdelivered.framing, deliveredFraming, if_pos (hprepared.allowed.trans hnot)]
  · rw [Exchange.informational, if_neg Version.noConfusion, responseHead_eq]
    exact responseHeadOfContent_fields (statusLine_statusText _ _) hhead

/-- **The client reads the heads of a response.** Of whatever the proxy writes for a response that goes on,
the client reads one head: its status is the origin's, its fields are those that are not hop-by-hop, and
the framing and the end of the connection that it announces are the ones that the proxy acts on. The head
is never ambiguous, and a client of HTTP/1.0 gets no transfer codings. A reader with the limits of the
proxy refuses only a head that has become too long. Of an interim response a client of HTTP/1.0 is told
nothing, and any other reads its head, which announces no body and no end. -/
theorem delivered_head {content followed : Bytes}
    (hread : responseHeadOfContent method content = .ok (response, followed))
    (hforward : forwardResponseHead version response = some (headers, nominated)) (close : Bool) :
    (let prepared := delivered version response headers method close
      ∃ head, DeliveredAs version response nominated prepared head ∧
        ReadAsHead method prepared.head head) ∧
    (response.status.isInformational = true →
      let text := Exchange.informational version response.status headers
      version = .http10 ∧ text = [] ∨
        version = .http11 ∧ ∃ head,
          DeliveredAs version response nominated (delivered version response headers method false) head ∧
            head.framing = .none ∧ ReadAsHead method text head) := by
  refine ⟨read_delivered hread (prepared_delivered hforward method close), fun hinterim => ?_⟩
  cases version with
  | http10 => exact .inl ⟨rfl, rfl⟩
  | http11 => exact .inr ⟨rfl, read_informational hread hforward hinterim⟩

omit [HttpCrate] in
/-- A response whose length its `Connection` field nominates, and an interim response. -/
theorem delivered_head_example : ∃ (_ : HttpCrate) (response interim : OriginResponseHead)
    (headers headers' : HeaderMap) (nominated nominated' : List HeaderName),
      response.framing = .contentLength 1 ∧ interim.status = 103 ∧
      (let prepared := delivered .http11 response headers (ascii "GET") false
        ∃ head, DeliveredAs .http11 response nominated prepared head ∧
          ReadAsHead (ascii "GET") prepared.head head) ∧
      ∃ head, DeliveredAs .http11 interim nominated'
          (delivered .http11 interim headers' (ascii "GET") false) head ∧
        head.framing = .none ∧
          ReadAsHead (ascii "GET") (Exchange.informational .http11 interim.status headers') head := by
  let _ := HttpCrate.reference
  let text : Bytes := ascii "HTTP/1.1 200 OK" ++ crlf ++ ascii "Content-Length: 1" ++ crlf ++
    ascii "Connection: content-length" ++ crlf ++ crlf
  let hints : Bytes := ascii "HTTP/1.1 103 Early Hints" ++ crlf ++ ascii "Link: a" ++ crlf ++ crlf
  have heval : (responseHeadOfContent (ascii "GET") text).toOption.any (fun (response, _) =>
      response.framing == .contentLength 1 && (forwardResponseHead .http11 response).isSome) = true := by
    decide +kernel
  have heval' : (responseHeadOfContent (ascii "GET") hints).toOption.any (fun (response, _) =>
      response.status == 103 && (forwardResponseHead .http11 response).isSome) = true := by
    decide +kernel
  obtain ⟨⟨response, rest⟩, hfound, hplain⟩ := (Option.any_eq_true _ _).mp heval
  obtain ⟨⟨interim, rest'⟩, hfound', hplain'⟩ := (Option.any_eq_true _ _).mp heval'
  simp only [Bool.and_eq_true, beq_iff_eq] at hplain hplain'
  obtain ⟨hframing, hsome⟩ := hplain
  obtain ⟨hstatus, hsome'⟩ := hplain'
  obtain ⟨⟨headers, nominated⟩, hforward⟩ := Option.isSome_iff_exists.mp hsome
  obtain ⟨⟨headers', nominated'⟩, hforward'⟩ := Option.isSome_iff_exists.mp hsome'
  have hread : responseHeadOfContent (ascii "GET") text = .ok (response, rest) := toOption_eq_some hfound
  have hread' : responseHeadOfContent (ascii "GET") hints = .ok (interim, rest') :=
    toOption_eq_some hfound'
  have hinterim : interim.status.isInformational = true := by
    rw [hstatus]
    decide
  obtain ⟨hnone, -⟩ | ⟨-, hhints⟩ := (delivered_head hread' hforward' false).2 hinterim
  · cases hnone
  · exact ⟨_, response, interim, headers, headers', nominated, nominated', hframing, hstatus,
      (delivered_head hread hforward false).1, hhints⟩

end

end Vhrn.Proxy
