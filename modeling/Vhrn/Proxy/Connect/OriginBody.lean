import Vhrn.Proxy.Headers
import Vhrn.Proxy.Server.Http1.Body

/-!
# Reading origin responses

The upstream half of a forwarded exchange reads the response head and the response body from the
checked-out connection, with readers of its own. `RawBody` is the body at the start of a stream as its
framing alone determines it, before the rules that either side has for trailers; `turn_law` says that a
turn of the decoder takes a part of it, whatever the pieces in which the stream arrives.
-/

namespace Vhrn.Proxy

/-! ## Searches -/

/-- The search for the end of a line of a response. -/
def originLineSearch (tooLong : OriginError) : Search UInt8 OriginError where
  find := lineEnd
  check := validLineEndingsFrom none
  refused := .invalid
  tooLong
  ended := .incomplete
  finds := finds_lineEnd
  closed := closed_validLineEndings

/-- The search for the end of a response head whose status line has the given length. -/
def originHeadSearch (lineLength : ℕ) : Search UInt8 OriginError where
  find := findHeadEnd lineLength
  check := validLineEndingsFrom none
  refused := .invalid
  tooLong := .headersTooLarge
  ended := .incomplete
  finds := finds_findHeadEnd lineLength
  closed := closed_validLineEndings

variable [HttpCrate]

/-! ## The reader -/

def readResponseHead (requestMethod : Method) (source : Source UInt8) :
    Except OriginError OriginResponseHead × Source UInt8 :=
  match (originLineSearch .invalid).read requestLineLimit (readRoom requestLineLimit) source with
  | (.error error, source) => (.error error, source)
  | (.ok lineLength, source) =>
    let limit := lineLength + headerSectionLimit
    match (originHeadSearch lineLength).read limit (readRoom limit) source with
    | (.error error, source) => (.error error, source)
    | (.ok headLength, source) =>
      let head := source.buffered.take headLength
      match parseOriginResponseHead (head.take lineLength) (head.drop lineLength) requestMethod with
      | .error error => (.error error, source)
      | .ok head => (.ok head, source.consume headLength)

/-- A head that is buffered is read without further octets. -/
theorem readResponseHead_buffered {requestMethod : Method} {source : Source UInt8}
    {lineLength headLength : ℕ} {head : OriginResponseHead}
    (hline : (originLineSearch .invalid).scan requestLineLimit source.buffered = some (.ok lineLength))
    (hhead : (originHeadSearch lineLength).scan (lineLength + headerSectionLimit) source.buffered =
      some (.ok headLength))
    (hparse : parseOriginResponseHead ((source.buffered.take headLength).take lineLength)
      ((source.buffered.take headLength).drop lineLength) requestMethod = .ok head) :
    readResponseHead requestMethod source = (.ok head, source.consume headLength) := by
  rw [readResponseHead, Search.read_of_scan hline]
  simp only [Search.read_of_scan hhead, hparse]

omit [HttpCrate] in
/-- Takes body octets: of what is buffered, otherwise of what arrives. Nothing is taken at the end of
the stream. -/
def readData (maximum : ℕ) (source : Source UInt8) : Bytes × Source UInt8 :=
  let maximum := min (min maximum responseBodyFrameLimit) applicationBufferLimit
  source.takeSome maximum maximum

omit [HttpCrate] in
def readExactDelimiter (source : Source UInt8) : Except OriginError Unit × Source UInt8 :=
  match ensureBuffered 2 source with
  | (.decided (), source) =>
    if source.buffered.take 2 ≠ crlf then (.error .invalid, source) else (.ok (), source.consume 2)
  | (_, source) => (.error .incomplete, source)

/-- The names that a trailer section of a response must not have. -/
def originForbiddenTrailers : List Bytes :=
  [ascii "connection", ascii "content-length", ascii "host", ascii "keep-alive",
    ascii "proxy-authenticate", ascii "proxy-authorization", ascii "proxy-connection", ascii "te",
    ascii "trailer", ascii "transfer-encoding", ascii "upgrade", ascii "via"]

def validateOriginTrailers (trailers : HeaderMap) : Except OriginError Unit :=
  if trailers.fields.any fun field => originForbiddenTrailers.contains field.1.asStr then
    .error .invalid
  else .ok ()

/-- The trailers that go on to the client, of those that were read. -/
def originTrailers (nominations : List HeaderName) (headers : HeaderMap) :
    Except OriginError HeaderMap :=
  match validateOriginTrailers headers with
  | .error error => .error error
  | .ok () =>
    match sanitizeHopByHop headers with
    | none => .error .invalid
    | some headers => .ok (removeAll headers nominations)

/-! ## The decoder -/

/-- What of the body is still to be read. The reader of a trailer section keeps the fields it has and
the octets they took. -/
inductive OriginDecoderState
  | complete
  | fixed (remaining : ℕ)
  | chunkSize
  | chunkData (remaining : ℕ)
  | chunkDataEnd
  | trailers (headers : HeaderMap) (rawOctets : ℕ)
  | closeDelimited

structure OriginDecoder where
  state : OriginDecoderState
  trailerNominations : List HeaderName

/-- What a turn of the decoder does, and the decoder and the stream it leaves. -/
inductive OriginTurn
  | silent (decoder : OriginDecoder) (source : Source UInt8)
  | frame (frame : BodyFrame) (decoder : OriginDecoder) (source : Source UInt8)
  | finished (decoder : OriginDecoder) (source : Source UInt8)
  | failed (error : OriginError) (decoder : OriginDecoder) (source : Source UInt8)

namespace OriginDecoder

def new (framing : OriginBodyFraming) (trailerNominations : List HeaderName) : OriginDecoder :=
  { state := match framing with
      | .none => .complete
      | .contentLength remaining => .fixed remaining
      | .chunked => .chunkSize
      | .closeDelimited => .closeDelimited
    trailerNominations }

/-- Takes data of a part of which so much remains. -/
def dataTurn (decoder : OriginDecoder) (remaining : ℕ) (after : ℕ → OriginDecoderState)
    (source : Source UInt8) : OriginTurn :=
  match readData (min remaining applicationBufferLimit) source with
  | ([], source) => .failed .incomplete decoder source
  | (data, source) =>
    .frame (.data data) { decoder with state := after (remaining - data.length) } source

/-- Takes one line of the trailer section. -/
def trailerTurn (decoder : OriginDecoder) (headers : HeaderMap) (rawOctets : ℕ)
    (source : Source UInt8) : OriginTurn :=
  let limit := headerSectionLimit - rawOctets
  match (originLineSearch .headersTooLarge).read limit (readRoom limit) source with
  | (.error error, source) => .failed error decoder source
  | (.ok length, source) =>
    let line := source.buffered.take (length - 2)
    let source := source.consume length
    if line.isEmpty then
      match originTrailers decoder.trailerNominations headers with
      | .error error => .failed error decoder source
      | .ok trailers =>
        let decoder := { decoder with state := .complete }
        if trailers.isEmpty then .finished decoder source
        else .frame (.trailers trailers) decoder source
    else
      match invalidOrigin (appendFieldLine headers line) with
      | .error error => .failed error decoder source
      | .ok headers =>
        .silent { decoder with state := .trailers headers (rawOctets + length) } source

/-- One turn of the loop that looks for the next frame. -/
def turn (decoder : OriginDecoder) (source : Source UInt8) : OriginTurn :=
  match decoder.state with
  | .complete => .finished decoder source
  | .fixed 0 => .silent { decoder with state := .complete } source
  | .fixed remaining => decoder.dataTurn remaining .fixed source
  | .chunkSize =>
    match (originLineSearch .invalid).read requestLineLimit (readRoom requestLineLimit) source with
    | (.error error, source) => .failed error decoder source
    | (.ok length, source) =>
      let line := source.buffered.take (length - 2)
      let source := source.consume length
      match invalidOrigin (parseChunkSize line) with
      | .error error => .failed error decoder source
      | .ok size =>
        .silent { decoder with state := if size = 0 then .trailers .empty 0 else .chunkData size } source
  | .chunkData remaining =>
    decoder.dataTurn remaining
      (fun remaining => if remaining = 0 then .chunkDataEnd else .chunkData remaining) source
  | .chunkDataEnd =>
    match readExactDelimiter source with
    | (.error error, source) => .failed error decoder source
    | (.ok (), source) => .silent { decoder with state := .chunkSize } source
  | .trailers headers rawOctets => decoder.trailerTurn headers rawOctets source
  | .closeDelimited =>
    match readData applicationBufferLimit source with
    | ([], source) => .finished { decoder with state := .complete } source
    | (data, source) => .frame (.data data) decoder source

end OriginDecoder

/-- The response head at the start of a stream that is there as a whole, and what follows it. -/
def responseHeadOfContent (requestMethod : Method) (content : Bytes) :
    Except OriginError (OriginResponseHead × Bytes) :=
  match (originLineSearch .invalid).ofContent requestLineLimit content with
  | .error error => .error error
  | .ok lineLength =>
    match (originHeadSearch lineLength).ofContent (lineLength + headerSectionLimit) content with
    | .error error => .error error
    | .ok headLength =>
      let head := content.take headLength
      match parseOriginResponseHead (head.take lineLength) (head.drop lineLength) requestMethod with
      | .error error => .error error
      | .ok head => .ok (head, content.drop headLength)

/-- **The reader finds the head of the whole stream**, and leaves little buffered after it. -/
theorem readResponseHead_spec {requestMethod : Method} {source : Source UInt8} (h : Modest source) :
    responseHeadOfContent requestMethod source.content =
        (readResponseHead requestMethod source).1.map (fun head =>
          (head, (readResponseHead requestMethod source).2.content)) ∧
      (∀ head, (readResponseHead requestMethod source).1 = .ok head →
        Modest (readResponseHead requestMethod source).2) := by
  have hroom : Source.RoomWithin (readRoom requestLineLimit) requestLineLimit :=
    roomWithin_readRoom (by decide)
  have hlinefst := Search.read_fst (originLineSearch .invalid) hroom h
  have hcontent := Search.content_read (originLineSearch .invalid) requestLineLimit
    (readRoom requestLineLimit) source
  have hlength := Search.length_read_le (originLineSearch .invalid) hroom h
  have hline := @Search.find_of_read _ _ (originLineSearch .invalid) requestLineLimit
    (readRoom requestLineLimit) source
  unfold responseHeadOfContent readResponseHead
  rw [← hlinefst]
  generalize (originLineSearch .invalid).read requestLineLimit (readRoom requestLineLimit) source = line
    at *
  obtain ⟨_ | lineLength, s⟩ := line
  · exact ⟨rfl, fun head hhead => by cases hhead⟩
  · have hle := (hline rfl).2
    have hlimit : lineLength + headerSectionLimit ≤ connectionBufferLimit := by
      unfold connectionBufferLimit
      omega
    have hwithin : s.buffered.length ≤ lineLength + headerSectionLimit := by
      have : requestLineLimit ≤ headerSectionLimit := by decide
      simp only at hlength
      omega
    have hhead := search_spec (originHeadSearch lineLength) hlimit hlength hwithin
    simp only at hcontent hhead ⊢
    rw [hcontent] at hhead
    obtain ⟨hfst, htake, hconsume, hmodest, -⟩ := hhead
    rw [← hfst]
    generalize (originHeadSearch lineLength).read (lineLength + headerSectionLimit)
      (readRoom (lineLength + headerSectionLimit)) s = found at *
    obtain ⟨_ | headLength, s'⟩ := found
    · exact ⟨rfl, fun head hhead => by cases hhead⟩
    · simp only at htake hconsume hmodest ⊢
      rw [htake _ rfl _ le_rfl]
      split
      · exact ⟨rfl, fun head hhead => by cases hhead⟩
      · exact ⟨by rw [← hconsume _ rfl]; rfl, fun head _ => hmodest _ rfl⟩

/-! ## Bodies of whole streams -/

/-- Why a stream does not start with a body. -/
inductive BodyFault
  | malformed
  | trailersTooLarge
  | incomplete
  deriving DecidableEq

/-- A body as its framing alone determines it: the data up to the end or to a fault, and at the end the
fields of its trailer section and what follows the body in the stream. -/
structure RawBody where
  data : Bytes
  ending : Except BodyFault (HeaderMap × Bytes)

def RawBody.prepend (data : Bytes) (body : RawBody) : RawBody := { body with data := data ++ body.data }

omit [HttpCrate] in
def bodyLineSearch (tooLong : BodyFault) : Search UInt8 BodyFault where
  find := lineEnd
  check := validLineEndingsFrom none
  refused := .malformed
  tooLong
  ended := .incomplete
  finds := finds_lineEnd
  closed := closed_validLineEndings

omit [HttpCrate] in
theorem bodyLineSearch_drop {tooLong : BodyFault} {limit n : ℕ} {content : Bytes}
    (h : (bodyLineSearch tooLong).ofContent limit content = .ok n) :
    (content.drop n).length < content.length := by
  obtain ⟨hfind, hle⟩ := Search.ofContent_le h
  obtain ⟨m, -, rfl⟩ := Option.map_eq_some_iff.mp hfind
  rw [List.length_drop]
  omega

namespace OriginDecoderState

/-- The turns that take nothing and that a state may still make. -/
def rank : OriginDecoderState → ℕ
  | .fixed _ | .chunkData _ => 1
  | _ => 0

/-- What is still to be read of a body, at the start of a stream that is there as a whole. -/
def rawBody (state : OriginDecoderState) (content : Bytes) : RawBody :=
  match state with
  | .complete => ⟨[], .ok (.empty, content)⟩
  | .fixed remaining =>
    if content.length < remaining then ⟨content, .error .incomplete⟩
    else ⟨content.take remaining, .ok (.empty, content.drop remaining)⟩
  | .chunkSize =>
    match _h : (bodyLineSearch .malformed).ofContent requestLineLimit content with
    | .error fault => ⟨[], .error fault⟩
    | .ok length =>
      match parseChunkSize (content.take (length - 2)) with
      | .error _ => ⟨[], .error .malformed⟩
      | .ok size =>
        rawBody (if size = 0 then .trailers .empty 0 else .chunkData size) (content.drop length)
  | .chunkData remaining =>
    if _h : content.length < remaining then ⟨content, .error .incomplete⟩
    else (rawBody .chunkDataEnd (content.drop remaining)).prepend (content.take remaining)
  | .chunkDataEnd =>
    if _h : content.length < 2 then ⟨[], .error .incomplete⟩
    else if content.take 2 ≠ crlf then ⟨[], .error .malformed⟩
    else rawBody .chunkSize (content.drop 2)
  | .trailers headers rawOctets =>
    match _h : (bodyLineSearch .trailersTooLarge).ofContent (headerSectionLimit - rawOctets) content with
    | .error fault => ⟨[], .error fault⟩
    | .ok length =>
      let line := content.take (length - 2)
      if line.isEmpty then ⟨[], .ok (headers, content.drop length)⟩
      else
        match appendFieldLine headers line with
        | .error _ => ⟨[], .error .malformed⟩
        | .ok headers => rawBody (.trailers headers (rawOctets + length)) (content.drop length)
  | .closeDelimited => ⟨content, .ok (.empty, [])⟩
termination_by (content.length, rank state)
decreasing_by
  · exact Prod.Lex.left _ _ (bodyLineSearch_drop _h)
  · rcases Nat.eq_zero_or_pos remaining with rfl | hpos
    · exact Prod.Lex.right _ Nat.one_pos
    · refine Prod.Lex.left _ _ ?_
      rw [List.length_drop]
      omega
  · refine Prod.Lex.left _ _ ?_
    rw [List.length_drop]
    omega
  · exact Prod.Lex.left _ _ (bodyLineSearch_drop _h)

end OriginDecoderState

/-- A response body as the client's side gets it: the data up to its end or to an error, and at its end
the trailers, if there are any, and what follows the body in the stream. -/
structure OriginBody where
  data : Bytes
  ending : Except OriginError (Option HeaderMap × Bytes)

def OriginBody.prepend (data : Bytes) (body : OriginBody) : OriginBody :=
  { body with data := data ++ body.data }

omit [HttpCrate] in
def BodyFault.origin : BodyFault → OriginError
  | .malformed => .invalid
  | .trailersTooLarge => .headersTooLarge
  | .incomplete => .incomplete

/-- The body with the rules for the trailers of responses. -/
def RawBody.origin (nominations : List HeaderName) (body : RawBody) : OriginBody :=
  { data := body.data
    ending := match body.ending with
      | .error fault => .error fault.origin
      | .ok (headers, rest) =>
        match originTrailers nominations headers with
        | .error error => .error error
        | .ok trailers => .ok (if trailers.isEmpty then none else some trailers, rest) }

/-- Nothing is left of no trailers, and no rule forbids them. -/
theorem originTrailers_empty (nominations : List HeaderName) :
    ∃ trailers, originTrailers nominations .empty = .ok trailers ∧ trailers.isEmpty = true := by
  have hvalid : validateOriginTrailers .empty = .ok ⟨⟩ := by
    rw [validateOriginTrailers, HeaderMap.fields_empty]
    rfl
  have hnominated : connectionNominations HeaderMap.empty = some [] := by
    rw [connectionNominations, HeaderMap.getAll, HttpCrate.getAll_empty]
    rfl
  obtain ⟨sanitized, hsanitized⟩ : ∃ sanitized, sanitizeHopByHop HeaderMap.empty = some sanitized := by
    rw [sanitizeHopByHop, hnominated]
    exact ⟨_, rfl⟩
  refine ⟨_, by rw [originTrailers, hvalid, hsanitized], List.isEmpty_iff.mpr ?_⟩
  refine HeaderMap.fields_eq_nil fun name => ?_
  rw [getAll_removeAll]
  split
  · rfl
  · rw [getAll_sanitizeHopByHop hnominated hsanitized, HeaderMap.getAll, HttpCrate.getAll_empty]
    split <;> rfl

theorem origin_end (nominations : List HeaderName) (data rest : Bytes) :
    RawBody.origin nominations ⟨data, .ok (.empty, rest)⟩ = ⟨data, .ok (none, rest)⟩ := by
  obtain ⟨trailers, htrailers, hempty⟩ := originTrailers_empty nominations
  unfold RawBody.origin
  simp only [htrailers, hempty, if_true]

/-! ## Turns -/

namespace OriginDecoder

/-- The body that the decoder still has to read, at the start of a stream that is there as a whole. -/
def bodyOfContent (decoder : OriginDecoder) (content : Bytes) : OriginBody :=
  (decoder.state.rawBody content).origin decoder.trailerNominations

/-- The octets that the reader of a trailer section has taken. -/
def trailerOctets (decoder : OriginDecoder) : ℕ :=
  match decoder.state with
  | .trailers _ rawOctets => rawOctets
  | _ => 0

/-- A decoder and what is buffered as they are between two turns. -/
structure Ready (decoder : OriginDecoder) (source : Source UInt8) : Prop where
  modest : Modest source
  within : decoder.trailerOctets + source.buffered.length ≤ headerSectionLimit
  remains : ∀ remaining, decoder.state = .chunkData remaining → 1 ≤ remaining

/-- What a turn does to the body that is still to be read. -/
def TurnLaw (decoder : OriginDecoder) (source : Source UInt8) : OriginTurn → Prop
  | .silent decoder' source' =>
    decoder.bodyOfContent source.content = decoder'.bodyOfContent source'.content ∧
      Ready decoder' source'
  | .frame (.data data) decoder' source' =>
    data ≠ [] ∧ Ready decoder' source' ∧ decoder.bodyOfContent source.content =
      (decoder'.bodyOfContent source'.content).prepend data
  | .frame (.trailers trailers) decoder' source' =>
    Ready decoder' source' ∧
      decoder.bodyOfContent source.content = ⟨[], .ok (some trailers, source'.content)⟩
  | .finished decoder' source' =>
    Ready decoder' source' ∧
      decoder.bodyOfContent source.content = ⟨[], .ok (none, source'.content)⟩
  | .failed error _ _ => decoder.bodyOfContent source.content = ⟨[], .error error⟩

/-- Outside a trailer section it is enough that little is buffered. -/
theorem Ready.of_modest {decoder : OriginDecoder} {source : Source UInt8} (h : Modest source)
    (hzero : decoder.trailerOctets = 0)
    (hremains : ∀ remaining, decoder.state = .chunkData remaining → 1 ≤ remaining) :
    Ready decoder source := by
  refine ⟨h, ?_, hremains⟩
  have hbuffered : source.buffered.length ≤ requestLineLimit := h
  have hlimit : requestLineLimit ≤ headerSectionLimit := by decide
  omega

end OriginDecoder

namespace OriginDecoderState

variable {content : Bytes}

theorem rawBody_complete : rawBody .complete content = ⟨[], .ok (.empty, content)⟩ := by
  rw [rawBody]

theorem rawBody_fixed {remaining : ℕ} : rawBody (.fixed remaining) content =
    if content.length < remaining then ⟨content, .error .incomplete⟩
    else ⟨content.take remaining, .ok (.empty, content.drop remaining)⟩ := by
  rw [rawBody]

theorem rawBody_chunkData {remaining : ℕ} : rawBody (.chunkData remaining) content =
    if content.length < remaining then ⟨content, .error .incomplete⟩
    else (rawBody .chunkDataEnd (content.drop remaining)).prepend (content.take remaining) := by
  rw [rawBody]
  split <;> rfl

theorem rawBody_chunkDataEnd : rawBody .chunkDataEnd content =
    if content.length < 2 then ⟨[], .error .incomplete⟩
    else if content.take 2 ≠ crlf then ⟨[], .error .malformed⟩
    else rawBody .chunkSize (content.drop 2) := by
  conv_lhs => rw [rawBody]
  split <;> rfl

theorem rawBody_chunkSize : rawBody .chunkSize content =
    match (bodyLineSearch .malformed).ofContent requestLineLimit content with
    | .error fault => ⟨[], .error fault⟩
    | .ok length =>
      match parseChunkSize (content.take (length - 2)) with
      | .error _ => ⟨[], .error .malformed⟩
      | .ok size =>
        rawBody (if size = 0 then .trailers .empty 0 else .chunkData size) (content.drop length) := by
  rw [rawBody]
  split <;> simp_all

theorem rawBody_trailers {headers : HeaderMap} {rawOctets : ℕ} :
    rawBody (.trailers headers rawOctets) content =
      match (bodyLineSearch .trailersTooLarge).ofContent (headerSectionLimit - rawOctets) content with
      | .error fault => ⟨[], .error fault⟩
      | .ok length =>
        if (content.take (length - 2)).isEmpty then ⟨[], .ok (headers, content.drop length)⟩
        else
          match appendFieldLine headers (content.take (length - 2)) with
          | .error _ => ⟨[], .error .malformed⟩
          | .ok headers => rawBody (.trailers headers (rawOctets + length)) (content.drop length) := by
  rw [rawBody]
  split <;> simp_all

theorem rawBody_chunkSize_error {fault : BodyFault}
    (h : (bodyLineSearch .malformed).ofContent requestLineLimit content = .error fault) :
    rawBody .chunkSize content = ⟨[], .error fault⟩ := by
  rw [rawBody_chunkSize, h]

theorem rawBody_chunkSize_ok {length : ℕ}
    (h : (bodyLineSearch .malformed).ofContent requestLineLimit content = .ok length) :
    rawBody .chunkSize content =
      match parseChunkSize (content.take (length - 2)) with
      | .error _ => ⟨[], .error .malformed⟩
      | .ok size =>
        rawBody (if size = 0 then .trailers .empty 0 else .chunkData size) (content.drop length) := by
  rw [rawBody_chunkSize, h]

theorem rawBody_trailers_error {headers : HeaderMap} {rawOctets : ℕ} {fault : BodyFault}
    (h : (bodyLineSearch .trailersTooLarge).ofContent (headerSectionLimit - rawOctets) content =
      .error fault) : rawBody (.trailers headers rawOctets) content = ⟨[], .error fault⟩ := by
  rw [rawBody_trailers, h]

theorem rawBody_trailers_ok {headers : HeaderMap} {rawOctets length : ℕ}
    (h : (bodyLineSearch .trailersTooLarge).ofContent (headerSectionLimit - rawOctets) content =
      .ok length) :
    rawBody (.trailers headers rawOctets) content =
      if (content.take (length - 2)).isEmpty then ⟨[], .ok (headers, content.drop length)⟩
      else
        match appendFieldLine headers (content.take (length - 2)) with
        | .error _ => ⟨[], .error .malformed⟩
        | .ok headers => rawBody (.trailers headers (rawOctets + length)) (content.drop length) := by
  rw [rawBody_trailers, h]

theorem rawBody_closeDelimited : rawBody .closeDelimited content = ⟨content, .ok (.empty, [])⟩ := by
  rw [rawBody]

theorem rawBody_fixed_append {remaining : ℕ} {data : Bytes} (hle : data.length ≤ remaining)
    (rest : Bytes) : rawBody (.fixed remaining) (data ++ rest) =
      (rawBody (.fixed (remaining - data.length)) rest).prepend data := by
  rw [rawBody_fixed, rawBody_fixed, List.length_append]
  by_cases hlt : rest.length < remaining - data.length
  · rw [if_pos (by omega), if_pos hlt]
    rfl
  · rw [if_neg (by omega), if_neg hlt, List.take_append, List.drop_append,
      List.take_of_length_le hle, List.drop_eq_nil_of_le hle]
    rfl

theorem rawBody_chunkData_append {remaining : ℕ} {data : Bytes} (hle : data.length ≤ remaining)
    (rest : Bytes) : rawBody (.chunkData remaining) (data ++ rest) =
      (rawBody (if remaining - data.length = 0 then .chunkDataEnd
        else .chunkData (remaining - data.length)) rest).prepend data := by
  rw [rawBody_chunkData, List.length_append]
  by_cases hzero : remaining - data.length = 0
  · have hlen : data.length = remaining := by omega
    rw [if_neg (by omega), if_pos hzero, List.take_left' hlen, List.drop_left' hlen]
  · rw [if_neg hzero, rawBody_chunkData]
    by_cases hlt : rest.length < remaining - data.length
    · rw [if_pos (by omega), if_pos hlt]
      rfl
    · rw [if_neg (by omega), if_neg hlt, List.take_append, List.drop_append,
        List.take_of_length_le hle, List.drop_eq_nil_of_le hle]
      simp only [RawBody.prepend, List.append_assoc, List.nil_append]

end OriginDecoderState

omit [HttpCrate] in
/-- What is taken as data comes first in the stream. -/
theorem content_readData (maximum : ℕ) (s : Source UInt8) :
    (readData maximum s).1 ++ (readData maximum s).2.content = s.content :=
  Source.content_takeSome _ _ s

omit [HttpCrate] in
/-- What is taken, with what stays buffered, was buffered before or fits a frame. -/
theorem length_readData (maximum : ℕ) (s : Source UInt8) :
    (readData maximum s).1.length ≤ min maximum responseBodyFrameLimit ∧
      (readData maximum s).1.length + (readData maximum s).2.buffered.length ≤
        max responseBodyFrameLimit s.buffered.length := by
  have htake := Source.length_takeSome (le_refl (min (min maximum responseBodyFrameLimit)
    applicationBufferLimit)) s
  unfold readData
  simp only at htake ⊢
  omega

omit [HttpCrate] in
/-- There is data to take unless the stream is at its end. -/
theorem readData_spec {maximum : ℕ} (hmax : 1 ≤ maximum) (s : Source UInt8) :
    (readData maximum s).2.buffered.length ≤ s.buffered.length ∧
      ((readData maximum s).1 = [] → s.content = []) := by
  have hframe : 1 ≤ responseBodyFrameLimit := by decide
  have hlimit : responseBodyFrameLimit ≤ applicationBufferLimit := by decide
  unfold readData
  exact Source.takeSome_spec (by omega) (by omega) s

namespace OriginDecoder

open OriginDecoderState

variable {decoder : OriginDecoder} {source : Source UInt8}

/-- What a state has to read decides what the decoder yields. -/
theorem bodyOfContent_of_state {state : OriginDecoderState} (h : decoder.state = state)
    (content : Bytes) : decoder.bodyOfContent content =
      (state.rawBody content).origin decoder.trailerNominations := by
  rw [bodyOfContent, h]

theorem trailerOctets_of_ne {state : OriginDecoderState} (hstate : decoder.state = state)
    (h : ∀ headers rawOctets, state ≠ .trailers headers rawOctets) : decoder.trailerOctets = 0 := by
  unfold trailerOctets
  split
  · rename_i headers rawOctets htrailers
    exact absurd (hstate.symm.trans htrailers) (h headers rawOctets)
  · rfl

theorem dataTurn_law {remaining : ℕ} {after : ℕ → OriginDecoderState} (hready : Ready decoder source)
    (hpos : 1 ≤ remaining)
    (hafter : ∀ later, (∀ headers rawOctets, after later ≠ .trailers headers rawOctets) ∧
      ∀ remaining, after later = .chunkData remaining → 1 ≤ remaining)
    (hnil : decoder.state.rawBody [] = ⟨[], .error .incomplete⟩)
    (happend : ∀ {data : Bytes}, data.length ≤ remaining → ∀ rest : Bytes,
      decoder.state.rawBody (data ++ rest) =
        ((after (remaining - data.length)).rawBody rest).prepend data) :
    TurnLaw decoder source (decoder.dataTurn remaining after source) := by
  have hmax : 1 ≤ min remaining applicationBufferLimit := Nat.le_min.mpr ⟨hpos, by decide⟩
  have hcontent := content_readData (min remaining applicationBufferLimit) source
  have hlength := (length_readData (min remaining applicationBufferLimit) source).1
  obtain ⟨hbuffered, hend⟩ := readData_spec hmax source
  unfold dataTurn
  generalize readData (min remaining applicationBufferLimit) source = read at *
  obtain ⟨data, source'⟩ := read
  cases data with
  | nil =>
    show decoder.bodyOfContent source.content = _
    rw [hend rfl, bodyOfContent, hnil]
    rfl
  | cons b data =>
    have hmodest : source'.buffered.length ≤ requestLineLimit := hbuffered.trans hready.modest
    refine ⟨List.cons_ne_nil b data, ?_, ?_⟩
    · exact .of_modest hmodest (trailerOctets_of_ne rfl (hafter _).1) (hafter _).2
    · rw [← hcontent, bodyOfContent, happend]
      · rfl
      · exact hlength.trans ((Nat.min_le_left _ _).trans (Nat.min_le_left _ _))

omit [HttpCrate] in
/-- Only the errors of the searches for line ends differ. -/
theorem originLineSearch_ofContent (tooLong : BodyFault) (limit : ℕ) (content : Bytes) :
    (originLineSearch tooLong.origin).ofContent limit content =
      ((bodyLineSearch tooLong).ofContent limit content).mapError BodyFault.origin :=
  Search.ofContent_mapError BodyFault.origin (bodyLineSearch tooLong) limit content

/-- After a size line the data or the trailer section follows. -/
theorem Ready.after_size {size : ℕ} (h : Modest source) : Ready
    { decoder with state := if size = 0 then .trailers .empty 0 else .chunkData size } source := by
  by_cases hzero : size = 0
  · rw [if_pos hzero]
    exact .of_modest h rfl fun _ h => by cases h
  · rw [if_neg hzero]
    refine .of_modest h rfl fun remaining hremaining => ?_
    obtain rfl := OriginDecoderState.chunkData.inj hremaining
    exact Nat.one_le_iff_ne_zero.mpr hzero

theorem chunkSizeTurn_law (hready : Ready decoder source) (hstate : decoder.state = .chunkSize) :
    TurnLaw decoder source (decoder.turn source) := by
  obtain ⟨hfst, htake, hconsume, hmodest, -⟩ := search_spec (originLineSearch .invalid)
    (by decide : requestLineLimit ≤ connectionBufferLimit) hready.modest hready.modest
  have hraw := @rawBody_chunkSize _ source.content
  have hsearch : (originLineSearch .invalid).ofContent requestLineLimit source.content = _ :=
    originLineSearch_ofContent .malformed requestLineLimit source.content
  rw [hsearch] at hfst
  unfold turn
  rw [hstate]
  simp only
  generalize (originLineSearch .invalid).read requestLineLimit (readRoom requestLineLimit) source = line
    at *
  generalize (bodyLineSearch .malformed).ofContent requestLineLimit source.content = found at *
  obtain ⟨result, source'⟩ := line
  cases found with
  | error fault =>
    obtain rfl : result = .error fault.origin := hfst
    show decoder.bodyOfContent source.content = _
    rw [bodyOfContent_of_state hstate, hraw]
    rfl
  | ok length =>
    obtain rfl : result = .ok length := hfst
    simp only at htake hconsume hmodest hraw ⊢
    rw [htake _ rfl _ (Nat.sub_le _ _)]
    cases hsize : parseChunkSize (source.content.take (length - 2)) with
    | error error =>
      rw [hsize] at hraw
      show decoder.bodyOfContent source.content = _
      rw [bodyOfContent_of_state hstate, hraw]
      rfl
    | ok size =>
      rw [hsize] at hraw
      refine ⟨?_, .after_size (hmodest _ rfl)⟩
      rw [bodyOfContent_of_state hstate, hraw, hconsume _ rfl]
      rfl

theorem chunkDataEndTurn_law (hready : Ready decoder source) (hstate : decoder.state = .chunkDataEnd) :
    TurnLaw decoder source (decoder.turn source) := by
  obtain ⟨henough, hshort⟩ := BodyDecoder.delimiter_spec hready.modest
  have hbody := bodyOfContent_of_state hstate source.content
  rw [rawBody_chunkDataEnd] at hbody
  unfold turn readExactDelimiter
  rw [hstate]
  by_cases hlength : 2 ≤ source.content.length
  · obtain ⟨source', hensured, htake, hconsume, hmodest⟩ := henough hlength
    rw [if_neg (Nat.not_lt.mpr hlength), ← htake, ← hconsume] at hbody
    simp only [hensured]
    by_cases hcrlf : source'.buffered.take 2 ≠ crlf
    · rw [if_pos hcrlf] at hbody ⊢
      exact hbody
    · rw [if_neg hcrlf] at hbody ⊢
      exact ⟨hbody, .of_modest hmodest rfl fun _ h => by cases h⟩
  · obtain ⟨source', hensured⟩ := hshort (Nat.not_le.mp hlength)
    rw [if_pos (Nat.not_le.mp hlength)] at hbody
    simp only [hensured]
    exact hbody

theorem trailerTurn_law {headers : HeaderMap} {rawOctets : ℕ} (hready : Ready decoder source)
    (hstate : decoder.state = .trailers headers rawOctets) :
    TurnLaw decoder source (decoder.trailerTurn headers rawOctets source) := by
  have hoctets : decoder.trailerOctets = rawOctets := by rw [trailerOctets, hstate]
  have hwithin := hready.within
  rw [hoctets] at hwithin
  have hlimit : headerSectionLimit - rawOctets ≤ connectionBufferLimit :=
    (Nat.sub_le _ _).trans (by decide)
  obtain ⟨hfst, htake, hconsume, hmodest, hfits⟩ :=
    search_spec (originLineSearch .headersTooLarge) hlimit hready.modest (by omega)
  have hraw := @rawBody_trailers _ source.content headers rawOctets
  have hsearch : (originLineSearch .headersTooLarge).ofContent (headerSectionLimit - rawOctets)
      source.content = _ :=
    originLineSearch_ofContent .trailersTooLarge (headerSectionLimit - rawOctets) source.content
  rw [hsearch] at hfst
  have hbody := bodyOfContent_of_state hstate source.content
  unfold trailerTurn
  simp only
  generalize (originLineSearch .headersTooLarge).read (headerSectionLimit - rawOctets)
    (readRoom (headerSectionLimit - rawOctets)) source = line at *
  generalize (bodyLineSearch .trailersTooLarge).ofContent (headerSectionLimit - rawOctets)
    source.content = found at *
  obtain ⟨result, source'⟩ := line
  cases found with
  | error fault =>
    obtain rfl : result = .error fault.origin := hfst
    rw [hraw] at hbody
    exact hbody
  | ok length =>
    obtain rfl : result = .ok length := hfst
    simp only at htake hconsume hmodest hfits hraw ⊢
    rw [← htake _ rfl _ (Nat.sub_le _ _), ← hconsume _ rfl] at hraw
    have hfits' : rawOctets + length + (source'.consume length).buffered.length ≤
        headerSectionLimit := by
      have := hfits _ rfl
      omega
    by_cases hline : (source'.buffered.take (length - 2)).isEmpty = true
    · rw [if_pos hline] at hraw ⊢
      rw [hraw] at hbody
      unfold RawBody.origin at hbody
      cases htrailers : originTrailers decoder.trailerNominations headers with
      | error error =>
        simp only [htrailers] at hbody
        exact hbody
      | ok trailers =>
        simp only [htrailers] at hbody ⊢
        have hready' : Ready { decoder with state := .complete } (source'.consume length) :=
          .of_modest (hmodest _ rfl) rfl fun _ h => by cases h
        by_cases hempty : trailers.isEmpty = true
        · rw [if_pos hempty] at hbody ⊢
          exact ⟨hready', hbody⟩
        · rw [if_neg hempty] at hbody ⊢
          exact ⟨hready', hbody⟩
    · rw [if_neg hline] at hraw ⊢
      cases happend : appendFieldLine headers (source'.buffered.take (length - 2)) with
      | error error =>
        rw [happend] at hraw
        rw [hraw] at hbody
        exact hbody
      | ok headers =>
        rw [happend] at hraw
        rw [hraw] at hbody
        exact ⟨hbody, hmodest _ rfl, hfits', fun _ h => by cases h⟩

theorem closeDelimitedTurn_law (hready : Ready decoder source)
    (hstate : decoder.state = .closeDelimited) : TurnLaw decoder source (decoder.turn source) := by
  have hcontent := content_readData applicationBufferLimit source
  obtain ⟨hbuffered, hend⟩ := readData_spec (by decide : 1 ≤ applicationBufferLimit) source
  have hbody := bodyOfContent_of_state hstate source.content
  rw [rawBody_closeDelimited, origin_end] at hbody
  unfold turn
  rw [hstate]
  simp only
  generalize readData applicationBufferLimit source = read at *
  obtain ⟨data, source'⟩ := read
  have hmodest : source'.buffered.length ≤ requestLineLimit := hbuffered.trans hready.modest
  cases data with
  | nil =>
    have hnil := hend rfl
    rw [hnil, List.nil_append] at hcontent
    rw [hnil] at hbody
    refine ⟨.of_modest hmodest rfl fun _ h => (by cases h), ?_⟩
    rw [hnil, hcontent]
    exact hbody
  | cons b data =>
    refine ⟨List.cons_ne_nil b data,
      .of_modest hmodest (trailerOctets_of_ne hstate fun _ _ h => by cases h) ?_, ?_⟩
    · intro remaining h
      rw [hstate] at h
      cases h
    · rw [hbody, bodyOfContent_of_state hstate, rawBody_closeDelimited, origin_end, ← hcontent]
      rfl

/-- **A turn takes a part of the body**, whatever the pieces in which the stream arrives. -/
theorem turn_law (hready : Ready decoder source) : TurnLaw decoder source (decoder.turn source) := by
  cases hstate : decoder.state with
  | complete =>
    unfold turn
    rw [hstate]
    refine ⟨hready, ?_⟩
    rw [bodyOfContent_of_state hstate, rawBody_complete, origin_end]
  | fixed remaining =>
    cases remaining with
    | zero =>
      unfold turn
      rw [hstate]
      refine ⟨?_, .of_modest hready.modest rfl fun _ h => by cases h⟩
      rw [bodyOfContent_of_state hstate, bodyOfContent, rawBody_fixed, rawBody_complete,
        if_neg (Nat.not_lt_zero _)]
      rfl
    | succ remaining =>
      unfold turn
      rw [hstate]
      refine dataTurn_law hready (Nat.le_add_left 1 remaining)
        (fun later => ⟨fun _ _ h => (by cases h), fun _ h => by cases h⟩) ?_ ?_
      · rw [hstate, rawBody_fixed]
        exact if_pos (Nat.succ_pos remaining)
      · rw [hstate]
        exact fun hle rest => rawBody_fixed_append hle rest
  | chunkSize => exact chunkSizeTurn_law hready hstate
  | chunkData remaining =>
    unfold turn
    rw [hstate]
    refine dataTurn_law hready (hready.remains _ hstate) (fun later => ?_) ?_ ?_
    · by_cases hlater : later = 0
      · rw [if_pos hlater]
        exact ⟨fun _ _ h => (by cases h), fun _ h => by cases h⟩
      · rw [if_neg hlater]
        refine ⟨fun _ _ h => (by cases h), fun remaining h => ?_⟩
        obtain rfl := OriginDecoderState.chunkData.inj h
        exact Nat.one_le_iff_ne_zero.mpr hlater
    · rw [hstate, rawBody_chunkData]
      exact if_pos (hready.remains _ hstate)
    · rw [hstate]
      exact fun hle rest => rawBody_chunkData_append hle rest
  | chunkDataEnd => exact chunkDataEndTurn_law hready hstate
  | trailers headers rawOctets =>
    unfold turn
    rw [hstate]
    exact trailerTurn_law hready hstate
  | closeDelimited => exact closeDelimitedTurn_law hready hstate

theorem ready_new (framing : OriginBodyFraming) (nominations : List HeaderName)
    (hmodest : Modest source) : Ready (new framing nominations) source := by
  refine .of_modest hmodest ?_ fun remaining hstate => ?_
  · cases framing <;> rfl
  · cases framing <;> cases hstate

/-! ## Frames -/

theorem dataTurn_ne_silent {remaining : ℕ} {after : ℕ → OriginDecoderState}
    {decoder' : OriginDecoder} {source' : Source UInt8} :
    decoder.dataTurn remaining after source ≠ .silent decoder' source' := by
  unfold dataTurn
  split <;> nofun

/-- A turn that yields nothing leaves less of the stream, or comes closer to the next octets. -/
theorem turn_silent {decoder' : OriginDecoder} {source' : Source UInt8}
    (h : decoder.turn source = .silent decoder' source') :
    source'.content.length < source.content.length ∨
      source'.content.length = source.content.length ∧ rank decoder'.state < rank decoder.state := by
  unfold turn at h
  split at h
  · cases h
  · rename_i hstate
    cases h
    exact .inr ⟨rfl, by rw [hstate]; exact Nat.one_pos⟩
  · exact absurd h dataTurn_ne_silent
  · split at h
    · cases h
    · rename_i hline
      simp only at h
      split at h <;> cases h
      exact .inl (BodyDecoder.content_consume_line rfl hline)
  · exact absurd h dataTurn_ne_silent
  · split at h
    · cases h
    · rename_i hdelimiter
      cases h
      unfold readExactDelimiter at hdelimiter
      split at hdelimiter
      · rename_i hensured
        split at hdelimiter <;> cases hdelimiter
        exact .inl (BodyDecoder.content_consume_delimiter hensured)
      · cases hdelimiter
  · unfold trailerTurn at h
    simp only at h
    split at h
    · cases h
    · rename_i hline
      split at h
      · split at h
        · cases h
        · split at h <;> cases h
      · split at h <;> cases h
        exact .inl (BodyDecoder.content_consume_line rfl hline)
  · split at h <;> cases h

/-- The next frame of a body, and `none` at its end. -/
def nextFrame (decoder : OriginDecoder) (source : Source UInt8) :
    Except OriginError (Option BodyFrame) × OriginDecoder × Source UInt8 :=
  match _h : decoder.turn source with
  | .silent decoder source => nextFrame decoder source
  | .frame frame decoder source => (.ok (some frame), decoder, source)
  | .finished decoder source => (.ok none, decoder, source)
  | .failed error decoder source => (.error error, decoder, source)
termination_by (source.content.length, rank decoder.state)
decreasing_by
  rcases turn_silent _h with hlt | ⟨heq, hlt⟩
  · exact Prod.Lex.left _ _ hlt
  · rw [heq]
    exact Prod.Lex.right _ hlt

/-! ## Whole bodies -/

/-- The turn that yields what a call for the next frame yields. -/
def frameTurn : Except OriginError (Option BodyFrame) × OriginDecoder × Source UInt8 → OriginTurn
  | (.ok (some frame), decoder, source) => .frame frame decoder source
  | (.ok none, decoder, source) => .finished decoder source
  | (.error error, decoder, source) => .failed error decoder source

theorem TurnLaw.of_eq {decoder' : OriginDecoder} {source' : Source UInt8} {turn : OriginTurn}
    (h : decoder.bodyOfContent source.content = decoder'.bodyOfContent source'.content)
    (hlaw : TurnLaw decoder' source' turn) : TurnLaw decoder source turn := by
  rcases turn with _ | ⟨frame | frame, _, _⟩ | _ | _ <;> simp only [TurnLaw, h] <;> exact hlaw

/-- The next frame takes a part of the body. -/
theorem nextFrame_law (hready : Ready decoder source) :
    TurnLaw decoder source (frameTurn (decoder.nextFrame source)) := by
  have hlaw := turn_law hready
  fun_induction nextFrame decoder source with
  | case1 decoder source decoder' source' hturn ih =>
    rw [hturn] at hlaw
    exact (ih hlaw.2 (turn_law hlaw.2)).of_eq hlaw.1
  | case2 decoder source frame decoder' source' hturn =>
    rw [hturn] at hlaw
    exact hlaw
  | case3 decoder source decoder' source' hturn =>
    rw [hturn] at hlaw
    exact hlaw
  | case4 decoder source error decoder' source' hturn =>
    rw [hturn] at hlaw
    exact hlaw

theorem turn_data {data : Bytes} {decoder' : OriginDecoder} {source' : Source UInt8}
    (h : decoder.turn source = .frame (.data data) decoder' source') :
    source'.content.length < source.content.length := by
  have hdata {remaining : ℕ} {after : ℕ → OriginDecoderState}
      (h : decoder.dataTurn remaining after source = .frame (.data data) decoder' source') :
      source'.content.length < source.content.length := by
    unfold dataTurn at h
    split at h
    · cases h
    · rename_i hne hread
      cases h
      exact Source.length_content_takeSome hread hne
  unfold turn at h
  split at h
  · cases h
  · cases h
  · exact hdata h
  · split at h
    · cases h
    · simp only at h
      split at h <;> cases h
  · exact hdata h
  · split at h <;> cases h
  · unfold trailerTurn at h
    simp only at h
    split at h
    · cases h
    · split at h
      · split at h
        · cases h
        · split at h <;> cases h
      · split at h <;> cases h
  · split at h
    · cases h
    · rename_i hne hread
      cases h
      exact Source.length_content_takeSome hread hne

/-- Data that is yielded is taken from the stream. -/
theorem nextFrame_data {data : Bytes} {decoder' : OriginDecoder} {source' : Source UInt8}
    (h : decoder.nextFrame source = (.ok (some (.data data)), decoder', source')) :
    source'.content.length < source.content.length := by
  fun_induction nextFrame decoder source with
  | case1 decoder source d s hturn ih =>
    have hlt := ih h
    rcases turn_silent hturn with hle | ⟨heq, -⟩
    · exact hlt.trans hle
    · exact heq ▸ hlt
  | case2 decoder source frame d s hturn =>
    cases h
    exact turn_data hturn
  | case3 decoder source d s hturn => cases h
  | case4 decoder source error d s hturn => cases h

/-- A body is read by asking for frames until there is none, or trailers or an error. -/
def readBody (decoder : OriginDecoder) (source : Source UInt8) : OriginBody :=
  match _h : decoder.nextFrame source with
  | (.ok (some (.data data)), decoder, source) => (readBody decoder source).prepend data
  | (.ok (some (.trailers headers)), _, source) => ⟨[], .ok (some headers, source.content)⟩
  | (.ok none, _, source) => ⟨[], .ok (none, source.content)⟩
  | (.error error, _, _) => ⟨[], .error error⟩
termination_by source.content.length
decreasing_by exact nextFrame_data _h

theorem readBody_eq (hready : Ready decoder source) :
    decoder.readBody source = decoder.bodyOfContent source.content := by
  have hlaw := nextFrame_law hready
  fun_induction readBody decoder source with
  | case1 decoder source data decoder' source' hframe ih =>
    rw [hframe] at hlaw
    obtain ⟨-, hready', hbody⟩ := hlaw
    rw [hbody, ih hready' (nextFrame_law hready')]
  | case2 decoder source trailers decoder' source' hframe =>
    rw [hframe] at hlaw
    exact hlaw.2.symm
  | case3 decoder source decoder' source' hframe =>
    rw [hframe] at hlaw
    exact hlaw.2.symm
  | case4 decoder source error decoder' source' hframe =>
    rw [hframe] at hlaw
    exact Eq.symm hlaw

end OriginDecoder

end Vhrn.Proxy
