import Vhrn.Proxy.Server.Http1.Reader

/-!
# Reading request bodies

The decoder of request bodies takes what its framing announces from the connection that the head was read
from. It works in turns: a turn goes on with the next part of the framing, yields a frame, ends the body or
fails. `BodyDecoder.bodyOfContent` is the body at the start of a stream that is there as a whole, and
`turn_spec` says that a turn takes a part of it, whatever the pieces in which the stream arrives.
-/

namespace Vhrn.Proxy

def chunkLineLimit : ℕ := requestLineLimit

/-! ## Chunk sizes and trailers -/

/-- The name of a chunk extension, with a value or without. -/
def validChunkExtension (extension : Bytes) : Bool :=
  let extension := trimOws extension
  !extension.isEmpty &&
    match splitQuoted extension 61 with
    | .ok [name] => validToken (trimOws name)
    | .ok [name, value] => validToken (trimOws name) && validParameterValue (trimOws value)
    | _ => false

def parseChunkSize (line : Bytes) : Except IngressError ℕ := do
  let parts ← splitQuoted line 59
  let size := parts.headD []
  if size.isEmpty || !size.all Ascii.isHexDigit then throw .badRequest
  if parts.tail.any (!validChunkExtension ·) then throw .badRequest
  match Numerals.checkedValue 16 (2 ^ 64 - 1) size with
  | some size => return size
  | none => throw .badRequest

/-- The names that a trailer section of a request must not have. -/
def forbiddenTrailers : List Bytes :=
  [ascii "connection", ascii "content-length", ascii "host", ascii "proxy-authorization",
    ascii "proxy-authenticate", ascii "te", ascii "trailer", ascii "transfer-encoding"]

variable [HttpCrate]

def validateTrailers (trailers : HeaderMap) : Except IngressError Unit :=
  if trailers.fields.any fun field => forbiddenTrailers.contains field.1.asStr then .error .badRequest
  else .ok ()

/-! ## Searches -/

omit [HttpCrate] in
/-- The search for the end of a line. -/
def lineSearch (tooLong : IngressError) : Search UInt8 IngressError where
  find := lineEnd
  check := validLineEndingsFrom none
  refused := .badRequest
  tooLong
  ended := .incomplete
  finds := finds_lineEnd
  closed := closed_validLineEndings

/-! ## The decoder -/

inductive DecoderState
  | complete
  | fixed (remaining : ℕ)
  | chunkSize
  | chunkData (remaining : ℕ)
  | chunkDataEnd
  | trailers
  deriving DecidableEq

inductive BodyFrame
  | data (bytes : Bytes)
  | trailers (headers : HeaderMap)

structure BodyDecoder where
  state : DecoderState
  trailerHeaders : HeaderMap
  trailerOctets : ℕ

/-- What a turn of the decoder does, and the decoder and the stream it leaves. -/
inductive Turn
  | silent (decoder : BodyDecoder) (source : Source UInt8)
  | frame (frame : BodyFrame) (decoder : BodyDecoder) (source : Source UInt8)
  | finished (decoder : BodyDecoder) (source : Source UInt8)
  | failed (error : IngressError) (decoder : BodyDecoder) (source : Source UInt8)

omit [HttpCrate] in
/-- Takes body octets: of what is buffered, otherwise of what arrives. Nothing is taken at the end of
the stream. -/
def readBodyData (maximum : ℕ) (source : Source UInt8) : Bytes × Source UInt8 :=
  if source.buffered ≠ [] then
    let count := min maximum source.buffered.length
    (source.buffered.take count, source.consume count)
  else
    let (data, incoming) := source.incoming.read (min maximum requestBodyFrameLimit)
    (data, { source with incoming })

def ensured (count : ℕ) (available : Bytes) : Option Unit :=
  if count ≤ available.length then some () else none

/-- Reads on until so many octets are buffered. -/
def ensureBuffered (count : ℕ) (source : Source UInt8) : Fill Unit × Source UInt8 :=
  source.fill (ensured count) count (count - ·)

namespace BodyDecoder

def new (framing : BodyFraming) : BodyDecoder :=
  { state := match framing with
      | .none => .complete
      | .contentLength remaining => .fixed remaining
      | .chunked => .chunkSize
    trailerHeaders := .empty
    trailerOctets := 0 }

/-- Takes data of a part of which so much remains. -/
def dataTurn (decoder : BodyDecoder) (remaining : ℕ) (after : ℕ → DecoderState)
    (source : Source UInt8) : Turn :=
  match readBodyData (min remaining requestBodyFrameLimit) source with
  | ([], source) => .failed .incomplete decoder source
  | (data, source) =>
    .frame (.data data) { decoder with state := after (remaining - data.length) } source

/-- Takes one line of the trailer section. -/
def trailerTurn (decoder : BodyDecoder) (source : Source UInt8) : Turn :=
  let limit := headerSectionLimit - decoder.trailerOctets
  match (lineSearch .headersTooLarge).read limit (readRoom limit) source with
  | (.error error, source) => .failed error decoder source
  | (.ok length, source) =>
    let line := source.buffered.take (length - 2)
    let decoder := { decoder with trailerOctets := decoder.trailerOctets + length }
    let source := source.consume length
    if line.isEmpty then
      match validateTrailers decoder.trailerHeaders with
      | .error error => .failed error decoder source
      | .ok () =>
        let trailers := decoder.trailerHeaders
        let decoder := { decoder with state := .complete, trailerHeaders := .empty }
        if trailers.isEmpty then .finished decoder source
        else .frame (.trailers trailers) decoder source
    else
      match appendFieldLine decoder.trailerHeaders line with
      | .error error => .failed error decoder source
      | .ok headers => .silent { decoder with trailerHeaders := headers } source

/-- One turn of the loop that looks for the next frame. -/
def turn (decoder : BodyDecoder) (source : Source UInt8) : Turn :=
  match decoder.state with
  | .complete => .finished decoder source
  | .fixed 0 => .silent { decoder with state := .complete } source
  | .fixed remaining => decoder.dataTurn remaining .fixed source
  | .chunkSize =>
    match (lineSearch .badRequest).read chunkLineLimit (readRoom chunkLineLimit) source with
    | (.error error, source) => .failed error decoder source
    | (.ok length, source) =>
      let line := source.buffered.take (length - 2)
      let source := source.consume length
      match parseChunkSize line with
      | .error error => .failed error decoder source
      | .ok size =>
        .silent { decoder with state := if size = 0 then .trailers else .chunkData size } source
  | .chunkData remaining =>
    decoder.dataTurn remaining
      (fun remaining => if remaining = 0 then .chunkDataEnd else .chunkData remaining) source
  | .chunkDataEnd =>
    match ensureBuffered 2 source with
    | (.decided (), source) =>
      if source.buffered.take 2 ≠ crlf then .failed .badRequest decoder source
      else .silent { decoder with state := .chunkSize } (source.consume 2)
    | (_, source) => .failed .incomplete decoder source
  | .trailers => decoder.trailerTurn source

/-! ## Bodies of whole streams -/

end BodyDecoder

/-- A body as its reader gets it: the data up to its end or to an error, and at its end the trailers, if
there are any, and what follows the body in the stream. -/
structure Body where
  data : Bytes
  ending : Except IngressError (Option HeaderMap × Bytes)

def Body.prepend (data : Bytes) (body : Body) : Body := { body with data := data ++ body.data }

namespace BodyDecoder

/-- The turns that take nothing and that a state may still make. -/
def rank : DecoderState → ℕ
  | .fixed _ | .chunkData _ => 1
  | _ => 0

end BodyDecoder

omit [HttpCrate] in
theorem lineSearch_le {tooLong : IngressError} {limit n : ℕ} {content : Bytes}
    (h : (lineSearch tooLong).ofContent limit content = .ok n) : 2 ≤ n ∧ n ≤ content.length := by
  obtain ⟨hfind, hle⟩ := Search.ofContent_le h
  obtain ⟨m, -, rfl⟩ := Option.map_eq_some_iff.mp hfind
  exact ⟨Nat.le_add_left 2 m, hle⟩

omit [HttpCrate] in
theorem lineSearch_drop {tooLong : IngressError} {limit n : ℕ} {content : Bytes}
    (h : (lineSearch tooLong).ofContent limit content = .ok n) :
    (content.drop n).length < content.length := by
  have hle := lineSearch_le h
  rw [List.length_drop]
  omega

namespace BodyDecoder

/-- The body at the start of a stream that is there as a whole. -/
def bodyOfContent (decoder : BodyDecoder) (content : Bytes) : Body :=
  match _hs : decoder.state with
  | .complete => ⟨[], .ok (none, content)⟩
  | .fixed remaining =>
    if content.length < remaining then ⟨content, .error .incomplete⟩
    else ⟨content.take remaining, .ok (none, content.drop remaining)⟩
  | .chunkSize =>
    match _h : (lineSearch .badRequest).ofContent chunkLineLimit content with
    | .error error => ⟨[], .error error⟩
    | .ok length =>
      match parseChunkSize (content.take (length - 2)) with
      | .error error => ⟨[], .error error⟩
      | .ok size =>
        bodyOfContent { decoder with state := if size = 0 then .trailers else .chunkData size }
          (content.drop length)
  | .chunkData remaining =>
    if _h : content.length < remaining then ⟨content, .error .incomplete⟩
    else (bodyOfContent { decoder with state := .chunkDataEnd } (content.drop remaining)).prepend
      (content.take remaining)
  | .chunkDataEnd =>
    if _h : content.length < 2 then ⟨[], .error .incomplete⟩
    else if content.take 2 ≠ crlf then ⟨[], .error .badRequest⟩
    else bodyOfContent { decoder with state := .chunkSize } (content.drop 2)
  | .trailers =>
    match _h : (lineSearch .headersTooLarge).ofContent (headerSectionLimit - decoder.trailerOctets)
      content with
    | .error error => ⟨[], .error error⟩
    | .ok length =>
      let line := content.take (length - 2)
      if line.isEmpty then
        match validateTrailers decoder.trailerHeaders with
        | .error error => ⟨[], .error error⟩
        | .ok () =>
          let trailers := decoder.trailerHeaders
          ⟨[], .ok (if trailers.isEmpty then none else some trailers, content.drop length)⟩
      else
        match appendFieldLine decoder.trailerHeaders line with
        | .error error => ⟨[], .error error⟩
        | .ok headers =>
          bodyOfContent
            { decoder with trailerHeaders := headers, trailerOctets := decoder.trailerOctets + length }
            (content.drop length)
termination_by (content.length, rank decoder.state)
decreasing_by
  · exact Prod.Lex.left _ _ (lineSearch_drop _h)
  · rw [_hs]
    rcases Nat.eq_zero_or_pos remaining with rfl | hpos
    · exact Prod.Lex.right _ Nat.one_pos
    · refine Prod.Lex.left _ _ ?_
      rw [List.length_drop]
      omega
  · refine Prod.Lex.left _ _ ?_
    rw [List.length_drop]
    omega
  · exact Prod.Lex.left _ _ (lineSearch_drop _h)

/-! ## Turns -/

/-- A decoder and what is buffered as they are between two turns. -/
structure Ready (decoder : BodyDecoder) (source : Source UInt8) : Prop where
  modest : Modest source
  within : decoder.trailerOctets + source.buffered.length ≤ headerSectionLimit
  fresh : decoder.state = .trailers ∨ decoder.state = .complete ∨ decoder.trailerOctets = 0
  remains : decoder.state ≠ .chunkData 0

/-- What a turn does to the body that is still to be read. -/
def TurnLaw (decoder : BodyDecoder) (source : Source UInt8) : Turn → Prop
  | .silent decoder' source' =>
    decoder.bodyOfContent source.content = decoder'.bodyOfContent source'.content ∧
      Ready decoder' source'
  | .frame (.data data) decoder' source' =>
    data ≠ [] ∧ Ready decoder' source' ∧ decoder.bodyOfContent source.content =
      (decoder'.bodyOfContent source'.content).prepend data
  | .frame (.trailers trailers) decoder' source' =>
    decoder'.state = .complete ∧ Ready decoder' source' ∧
      decoder.bodyOfContent source.content = ⟨[], .ok (some trailers, source'.content)⟩
  | .finished decoder' source' =>
    decoder'.state = .complete ∧ Ready decoder' source' ∧
      decoder.bodyOfContent source.content = ⟨[], .ok (none, source'.content)⟩
  | .failed error _ _ => decoder.bodyOfContent source.content = ⟨[], .error error⟩

end BodyDecoder

omit [HttpCrate] in
theorem readBodyData_eq (maximum : ℕ) (s : Source UInt8) :
    readBodyData maximum s = s.takeSome maximum (min maximum requestBodyFrameLimit) := by
  unfold readBodyData Source.takeSome
  cases s.buffered with
  | nil => rfl
  | cons b rest =>
    show (List.take (min _ _) _, _) = (List.take _ _, _)
    rw [← List.take_eq_take_min]

omit [HttpCrate] in
/-- What is taken as data comes first in the stream. -/
theorem content_readBodyData (maximum : ℕ) (s : Source UInt8) :
    (readBodyData maximum s).1 ++ (readBodyData maximum s).2.content = s.content := by
  rw [readBodyData_eq]
  exact Source.content_takeSome _ _ s

omit [HttpCrate] in
theorem length_readBodyData (maximum : ℕ) (s : Source UInt8) :
    (readBodyData maximum s).1.length ≤ maximum := by
  rw [readBodyData_eq]
  exact (Source.length_takeSome (Nat.min_le_left _ _) s).1

omit [HttpCrate] in
/-- There is data to take unless the stream is at its end. -/
theorem readBodyData_spec {maximum : ℕ} (hmax : 1 ≤ maximum) (s : Source UInt8) :
    (readBodyData maximum s).2.buffered.length ≤ s.buffered.length ∧
      ((readBodyData maximum s).1 = [] → s.content = []) := by
  rw [readBodyData_eq]
  exact Source.takeSome_spec hmax (Nat.le_min.mpr ⟨hmax, by decide⟩) s

namespace BodyDecoder

variable {decoder : BodyDecoder} {source : Source UInt8} {content : Bytes}

/-! ### Data -/

theorem bodyOfContent_complete (h : decoder.state = .complete) :
    decoder.bodyOfContent content = ⟨[], .ok (none, content)⟩ := by
  rw [bodyOfContent]
  split <;> simp_all

theorem bodyOfContent_fixed {remaining : ℕ} (h : decoder.state = .fixed remaining) :
    decoder.bodyOfContent content =
      if content.length < remaining then ⟨content, .error .incomplete⟩
      else ⟨content.take remaining, .ok (none, content.drop remaining)⟩ := by
  rw [bodyOfContent]
  split <;> simp_all

theorem bodyOfContent_chunkData {remaining : ℕ} (h : decoder.state = .chunkData remaining) :
    decoder.bodyOfContent content =
      if content.length < remaining then ⟨content, .error .incomplete⟩
      else (bodyOfContent { decoder with state := .chunkDataEnd } (content.drop remaining)).prepend
        (content.take remaining) := by
  rw [bodyOfContent]
  split <;> simp_all

theorem bodyOfContent_chunkDataEnd (h : decoder.state = .chunkDataEnd) :
    decoder.bodyOfContent content =
      if content.length < 2 then ⟨[], .error .incomplete⟩
      else if content.take 2 ≠ crlf then ⟨[], .error .badRequest⟩
      else bodyOfContent { decoder with state := .chunkSize } (content.drop 2) := by
  rw [bodyOfContent]
  split <;> simp_all

theorem bodyOfContent_fixed_append {remaining : ℕ} (h : decoder.state = .fixed remaining)
    {data : Bytes} (hle : data.length ≤ remaining) (rest : Bytes) :
    decoder.bodyOfContent (data ++ rest) =
      (bodyOfContent { decoder with state := .fixed (remaining - data.length) } rest).prepend data := by
  rw [bodyOfContent_fixed h, bodyOfContent_fixed rfl, List.length_append]
  by_cases hlt : rest.length < remaining - data.length
  · rw [if_pos (by omega), if_pos hlt]
    rfl
  · rw [if_neg (by omega), if_neg hlt, List.take_append, List.drop_append,
      List.take_of_length_le hle, List.drop_eq_nil_of_le hle]
    rfl

theorem bodyOfContent_chunkData_append {remaining : ℕ} (h : decoder.state = .chunkData remaining)
    {data : Bytes} (hle : data.length ≤ remaining) (rest : Bytes) :
    decoder.bodyOfContent (data ++ rest) =
      (bodyOfContent { decoder with
        state := if remaining - data.length = 0 then .chunkDataEnd
          else .chunkData (remaining - data.length) } rest).prepend data := by
  rw [bodyOfContent_chunkData h, List.length_append]
  by_cases hzero : remaining - data.length = 0
  · have hlen : data.length = remaining := by omega
    rw [if_neg (by omega), if_pos hzero, List.take_left' hlen, List.drop_left' hlen]
  · have hlater : bodyOfContent { decoder with state := .chunkData (remaining - data.length) } rest = _ :=
      bodyOfContent_chunkData rfl
    rw [if_neg hzero, hlater]
    by_cases hlt : rest.length < remaining - data.length
    · rw [if_pos (by omega), if_pos hlt]
      rfl
    · rw [if_neg (by omega), if_neg hlt, List.take_append, List.drop_append,
        List.take_of_length_le hle, List.drop_eq_nil_of_le hle]
      simp [Body.prepend]

theorem dataTurn_law {remaining : ℕ} {after : ℕ → DecoderState} (hready : Ready decoder source)
    (hzero : decoder.trailerOctets = 0) (hpos : 1 ≤ remaining)
    (hafter : ∀ remaining, after remaining ≠ .chunkData 0)
    (hnil : decoder.bodyOfContent [] = ⟨[], .error .incomplete⟩)
    (happend : ∀ {data : Bytes}, data.length ≤ remaining → ∀ rest : Bytes,
      decoder.bodyOfContent (data ++ rest) =
        (bodyOfContent { decoder with state := after (remaining - data.length) } rest).prepend data) :
    TurnLaw decoder source (decoder.dataTurn remaining after source) := by
  have hmax : 1 ≤ min remaining requestBodyFrameLimit := Nat.le_min.mpr ⟨hpos, by decide⟩
  have hcontent := content_readBodyData (min remaining requestBodyFrameLimit) source
  have hlength := length_readBodyData (min remaining requestBodyFrameLimit) source
  obtain ⟨hbuffered, hend⟩ := readBodyData_spec hmax source
  unfold dataTurn
  generalize readBodyData (min remaining requestBodyFrameLimit) source = read at *
  obtain ⟨data, source'⟩ := read
  cases data with
  | nil =>
    show decoder.bodyOfContent source.content = _
    rw [hend rfl, hnil]
  | cons b data =>
    have hmodest : source'.buffered.length ≤ requestLineLimit := hbuffered.trans hready.modest
    refine ⟨List.cons_ne_nil b data, ⟨hmodest, ?_, .inr (.inr hzero), hafter _⟩, ?_⟩
    · show decoder.trailerOctets + _ ≤ _
      have := hready.within
      simp only at hbuffered
      omega
    · rw [← hcontent]
      exact happend (hlength.trans (Nat.min_le_left _ _)) _

/-! ### Lines -/

theorem bodyOfContent_chunkSize (h : decoder.state = .chunkSize) :
    decoder.bodyOfContent content =
      match (lineSearch .badRequest).ofContent chunkLineLimit content with
      | .error error => ⟨[], .error error⟩
      | .ok length =>
        match parseChunkSize (content.take (length - 2)) with
        | .error error => ⟨[], .error error⟩
        | .ok size =>
          bodyOfContent { decoder with state := if size = 0 then .trailers else .chunkData size }
            (content.drop length) := by
  rw [bodyOfContent]
  split <;> simp_all
  split <;> simp_all

theorem bodyOfContent_trailers (h : decoder.state = .trailers) :
    decoder.bodyOfContent content =
      match (lineSearch .headersTooLarge).ofContent (headerSectionLimit - decoder.trailerOctets)
        content with
      | .error error => ⟨[], .error error⟩
      | .ok length =>
        let line := content.take (length - 2)
        if line.isEmpty then
          match validateTrailers decoder.trailerHeaders with
          | .error error => ⟨[], .error error⟩
          | .ok () =>
            let trailers := decoder.trailerHeaders
            ⟨[], .ok (if trailers.isEmpty then none else some trailers, content.drop length)⟩
        else
          match appendFieldLine decoder.trailerHeaders line with
          | .error error => ⟨[], .error error⟩
          | .ok headers =>
            bodyOfContent
              { decoder with
                trailerHeaders := headers, trailerOctets := decoder.trailerOctets + length }
              (content.drop length) := by
  rw [bodyOfContent]
  split <;> simp_all
  split <;> simp_all

theorem chunkSizeTurn_law (hready : Ready decoder source) (hstate : decoder.state = .chunkSize) :
    TurnLaw decoder source (decoder.turn source) := by
  have hzero : decoder.trailerOctets = 0 := by simpa [hstate] using hready.fresh
  obtain ⟨hfst, htake, hconsume, hmodest, -⟩ := search_spec (lineSearch .badRequest)
    (by decide : chunkLineLimit ≤ connectionBufferLimit) hready.modest hready.modest
  unfold turn
  rw [hstate]
  simp only
  generalize hline : (lineSearch .badRequest).read chunkLineLimit (readRoom chunkLineLimit) source = line
    at *
  obtain ⟨_ | length, source'⟩ := line
  · show decoder.bodyOfContent source.content = _
    rw [bodyOfContent_chunkSize hstate, ← hfst]
  · simp only at hfst htake hconsume hmodest ⊢
    rw [htake _ rfl _ (Nat.sub_le _ _)]
    cases hsize : parseChunkSize (source.content.take (length - 2)) with
    | error error =>
      show decoder.bodyOfContent source.content = _
      rw [bodyOfContent_chunkSize hstate, ← hfst]
      simp only [hsize]
    | ok size =>
      refine ⟨?_, hmodest _ rfl, ?_, .inr (.inr hzero), ?_⟩
      · rw [bodyOfContent_chunkSize hstate, ← hfst, hconsume _ rfl]
        simp only [hsize]
      · have hle : (source'.consume length).buffered.length ≤ requestLineLimit := hmodest _ rfl
        have hlimit : requestLineLimit ≤ headerSectionLimit := by decide
        show decoder.trailerOctets + _ ≤ _
        omega
      · show (if size = 0 then DecoderState.trailers else .chunkData size) ≠ .chunkData 0
        split <;> simp_all

omit [HttpCrate] in
theorem stable_ensured (count : ℕ) : Stable (ensured count) := by
  intro p q r hp
  obtain ⟨hle, hr⟩ := Option.ite_none_right_eq_some.mp hp
  have hlonger : count ≤ (p ++ q).length := by
    rw [List.length_append]
    omega
  rw [ensured, if_pos hlonger, hr]

omit [HttpCrate] in
/-- The octets are buffered, unless the stream does not have them. -/
theorem ensureBuffered_outcome (count : ℕ) (source : Source UInt8) :
    (ensureBuffered count source).1 =
        (if count ≤ source.content.length then .decided () else .exhausted) ∧
      (ensureBuffered count source).2.buffered.length ≤ max count source.buffered.length := by
  by_cases hle : source.buffered.length ≤ count
  · have hroom : Source.RoomWithin (count - ·) count := by
      intro k hk
      show 1 ≤ count - k ∧ k + (count - k) ≤ count
      omega
    refine ⟨(Source.fill_fst (stable_ensured count) hroom hle).trans ?_,
      (Source.length_fill_le hroom hle).trans (Nat.le_max_left _ _)⟩
    unfold Fill.ofContent ensured
    rw [List.length_take]
    by_cases hlength : count ≤ source.content.length
    · rw [if_pos (by omega : count ≤ min count source.content.length)]
      exact (if_pos hlength).symm
    · rw [if_neg (by omega : ¬ count ≤ min count source.content.length)]
      exact (if_neg hlength).trans (if_neg hlength).symm
  · have hbuffered : count ≤ source.buffered.length := by omega
    have hlength : count ≤ source.content.length := by
      rw [Source.content, List.length_append]
      omega
    have hsame : ensureBuffered count source = (.decided (), source) := Source.fill_of_stop <| by
      unfold Source.pass ensured
      rw [if_pos hbuffered]
    rw [hsame, if_pos hlength]
    exact ⟨rfl, Nat.le_max_right _ _⟩

omit [HttpCrate] in
theorem content_ensureBuffered (count : ℕ) (source : Source UInt8) :
    (ensureBuffered count source).2.content = source.content := Source.content_fill source

omit [HttpCrate] in
theorem ensureBuffered_decided {count : ℕ} {source : Source UInt8}
    (h : (ensureBuffered count source).1 = .decided ()) :
    count ≤ (ensureBuffered count source).2.buffered.length :=
  (Option.ite_none_right_eq_some.mp (Source.scan_fill h)).1

omit [HttpCrate] in
/-- The two octets after the data of a chunk, and what is left when they are taken. -/
theorem delimiter_spec {source : Source UInt8} (h : Modest source) :
    (2 ≤ source.content.length → ∃ source', ensureBuffered 2 source = (.decided (), source') ∧
      source'.buffered.take 2 = source.content.take 2 ∧
      (source'.consume 2).content = source.content.drop 2 ∧ Modest (source'.consume 2)) ∧
    (source.content.length < 2 → ∃ source', ensureBuffered 2 source = (.exhausted, source')) := by
  obtain ⟨houtcome, hbuffered⟩ := ensureBuffered_outcome 2 source
  have hcontent := content_ensureBuffered 2 source
  have hdecided := @ensureBuffered_decided 2 source
  generalize ensureBuffered 2 source = buffering at *
  obtain ⟨outcome, source'⟩ := buffering
  simp only at houtcome hcontent hdecided hbuffered
  refine ⟨fun hlength => ?_, fun hlength => ?_⟩
  · rw [if_pos hlength] at houtcome
    subst houtcome
    refine ⟨source', rfl, ?_, ?_, ?_⟩
    · rw [← hcontent, Source.content, List.take_append_of_le_length (hdecided rfl)]
    · rw [Source.content_consume (hdecided rfl), hcontent]
    · have hbefore : source.buffered.length ≤ requestLineLimit := h
      have htwo : 2 ≤ requestLineLimit := by decide
      show (source'.buffered.drop 2).length ≤ _
      rw [List.length_drop]
      omega
  · rw [if_neg (Nat.not_le.mpr hlength)] at houtcome
    subst houtcome
    exact ⟨source', rfl⟩

theorem chunkDataEndTurn_law (hready : Ready decoder source) (hstate : decoder.state = .chunkDataEnd) :
    TurnLaw decoder source (decoder.turn source) := by
  have hzero : decoder.trailerOctets = 0 := by simpa [hstate] using hready.fresh
  obtain ⟨henough, hshort⟩ := delimiter_spec hready.modest
  have hbody : decoder.bodyOfContent source.content = _ := bodyOfContent_chunkDataEnd hstate
  unfold turn
  rw [hstate]
  by_cases hlength : 2 ≤ source.content.length
  · obtain ⟨source', hensured, htake, hconsume, hmodest⟩ := henough hlength
    rw [if_neg (Nat.not_lt.mpr hlength), ← htake, ← hconsume] at hbody
    simp only [hensured]
    by_cases hcrlf : source'.buffered.take 2 ≠ crlf
    · rw [if_pos hcrlf] at hbody ⊢
      exact hbody
    · rw [if_neg hcrlf] at hbody ⊢
      refine ⟨hbody, hmodest, ?_, .inr (.inr hzero), DecoderState.noConfusion⟩
      have hmodest' : (source'.consume 2).buffered.length ≤ requestLineLimit := hmodest
      have hlimit : requestLineLimit ≤ headerSectionLimit := by decide
      show decoder.trailerOctets + _ ≤ _
      omega
  · obtain ⟨source', hensured⟩ := hshort (Nat.not_le.mp hlength)
    rw [if_pos (Nat.not_le.mp hlength)] at hbody
    simp only [hensured]
    exact hbody

/-! ### Trailers -/

theorem trailerTurn_law (hready : Ready decoder source) (hstate : decoder.state = .trailers) :
    TurnLaw decoder source (decoder.trailerTurn source) := by
  have hwithin := hready.within
  have hlimit : headerSectionLimit - decoder.trailerOctets ≤ connectionBufferLimit :=
    (Nat.sub_le _ _).trans (by decide)
  obtain ⟨hfst, htake, hconsume, hmodest, hfits⟩ :=
    search_spec (lineSearch .headersTooLarge) hlimit hready.modest (by omega)
  have hbody : decoder.bodyOfContent source.content = _ := bodyOfContent_trailers hstate
  unfold trailerTurn
  rw [← hfst] at hbody
  simp only
  generalize (lineSearch .headersTooLarge).read (headerSectionLimit - decoder.trailerOctets)
    (readRoom (headerSectionLimit - decoder.trailerOctets)) source = line at *
  obtain ⟨_ | length, source'⟩ := line
  · exact hbody
  · simp only at hbody htake hconsume hmodest hfits ⊢
    rw [← htake _ rfl _ (Nat.sub_le _ _), ← hconsume _ rfl] at hbody
    have hfits' : decoder.trailerOctets + length + (source'.consume length).buffered.length ≤
        headerSectionLimit := by
      have := hfits _ rfl
      omega
    by_cases hline : (source'.buffered.take (length - 2)).isEmpty = true
    · rw [if_pos hline] at hbody ⊢
      cases hvalid : validateTrailers decoder.trailerHeaders with
      | error error =>
        rw [hvalid] at hbody
        exact hbody
      | ok =>
        rw [hvalid] at hbody
        simp only at hbody ⊢
        have hready' (headers : HeaderMap) : Ready
            { state := .complete, trailerHeaders := headers
              trailerOctets := decoder.trailerOctets + length } (source'.consume length) :=
          ⟨hmodest _ rfl, hfits', .inr (.inl rfl), DecoderState.noConfusion⟩
        by_cases hempty : decoder.trailerHeaders.isEmpty = true
        · rw [if_pos hempty] at hbody ⊢
          exact ⟨rfl, hready' _, hbody⟩
        · rw [if_neg hempty] at hbody ⊢
          exact ⟨rfl, hready' _, hbody⟩
    · rw [if_neg hline] at hbody ⊢
      cases happend : appendFieldLine decoder.trailerHeaders (source'.buffered.take (length - 2)) with
      | error error =>
        rw [happend] at hbody
        exact hbody
      | ok headers =>
        rw [happend] at hbody
        exact ⟨hbody, hmodest _ rfl, hfits', .inl hstate, hready.remains⟩

/-- **A turn takes a part of the body**, whatever the pieces in which the stream arrives. -/
theorem turn_law (hready : Ready decoder source) :
    TurnLaw decoder source (decoder.turn source) := by
  cases hstate : decoder.state with
  | complete =>
    unfold turn
    rw [hstate]
    exact ⟨hstate, hready, bodyOfContent_complete hstate⟩
  | fixed remaining =>
    have hzero : decoder.trailerOctets = 0 := by simpa [hstate] using hready.fresh
    cases remaining with
    | zero =>
      unfold turn
      rw [hstate]
      refine ⟨?_, hready.modest, hready.within, .inr (.inl rfl), DecoderState.noConfusion⟩
      rw [bodyOfContent_fixed hstate, bodyOfContent_complete rfl, if_neg (Nat.not_lt_zero _)]
      rfl
    | succ remaining =>
      unfold turn
      rw [hstate]
      refine dataTurn_law hready hzero (Nat.le_add_left 1 remaining)
        (fun _ => DecoderState.noConfusion) ?_ ?_
      · rw [bodyOfContent_fixed hstate]
        exact if_pos (Nat.succ_pos remaining)
      · exact fun hle rest => bodyOfContent_fixed_append hstate hle rest
  | chunkSize => exact chunkSizeTurn_law hready hstate
  | chunkData remaining =>
    have hzero : decoder.trailerOctets = 0 := by simpa [hstate] using hready.fresh
    have hpos : 1 ≤ remaining := Nat.one_le_iff_ne_zero.mpr fun h =>
      hready.remains (by rw [hstate, h])
    unfold turn
    rw [hstate]
    refine dataTurn_law hready hzero hpos (fun later => ?_) ?_ ?_
    · show (if later = 0 then DecoderState.chunkDataEnd else .chunkData later) ≠ .chunkData 0
      split <;> simp_all
    · rw [bodyOfContent_chunkData hstate]
      exact if_pos hpos
    · exact fun hle rest => bodyOfContent_chunkData_append hstate hle rest
  | chunkDataEnd => exact chunkDataEndTurn_law hready hstate
  | trailers =>
    unfold turn
    rw [hstate]
    exact trailerTurn_law hready hstate

theorem ready_new (framing : BodyFraming) (hmodest : Modest source) :
    Ready (new framing) source := by
  refine ⟨hmodest, ?_, .inr (.inr rfl), ?_⟩
  · have hlimit : requestLineLimit ≤ headerSectionLimit := by decide
    show 0 + _ ≤ _
    exact (Nat.zero_add _).trans_le (hmodest.trans hlimit)
  · cases framing <;> exact DecoderState.noConfusion

/-! ## Frames -/

theorem dataTurn_ne_silent {remaining : ℕ} {after : ℕ → DecoderState} {decoder' : BodyDecoder}
    {source' : Source UInt8} : decoder.dataTurn remaining after source ≠ .silent decoder' source' := by
  unfold dataTurn
  split <;> nofun

omit [HttpCrate] in
/-- A line that is taken leaves less of the stream. -/
theorem content_consume_line {ε : Type*} {search : Search UInt8 ε} (hline : search.find = lineEnd)
    {limit : ℕ} {room : ℕ → ℕ} {source source' : Source UInt8} {n : ℕ}
    (h : search.read limit room source = (.ok n, source')) :
    (source'.consume n).content.length < source.content.length := by
  have hn : (search.read limit room source).1 = .ok n := by rw [h]
  have hconsume := Search.content_consume_read hn
  have hfind := (Search.find_of_read hn).1
  have hle := Search.le_of_read hn
  have hcontent := Search.content_read search limit room source
  rw [hline] at hfind
  rw [h] at hconsume hfind hle hcontent
  simp only at hconsume hle hcontent
  obtain ⟨m, -, rfl⟩ := Option.map_eq_some_iff.mp hfind
  have hlength : source'.buffered.length ≤ source.content.length := by
    rw [← hcontent, Source.content, List.length_append]
    omega
  rw [hconsume, List.length_drop]
  omega

omit [HttpCrate] in
/-- A delimiter that is taken leaves less of the stream. -/
theorem content_consume_delimiter {source source' : Source UInt8}
    (h : ensureBuffered 2 source = (.decided (), source')) :
    (source'.consume 2).content.length < source.content.length := by
  have hcontent := content_ensureBuffered 2 source
  have hle := ensureBuffered_decided (congrArg Prod.fst h)
  rw [h] at hcontent hle
  simp only at hcontent hle
  have hlength : source'.buffered.length ≤ source.content.length := by
    rw [← hcontent, Source.content, List.length_append]
    omega
  rw [Source.content_consume hle, hcontent, List.length_drop]
  omega

/-- A turn that yields nothing leaves less of the stream, or comes closer to the next octets. -/
theorem turn_silent {decoder' : BodyDecoder} {source' : Source UInt8}
    (h : decoder.turn source = .silent decoder' source') :
    source'.content.length < source.content.length ∨
      source'.content.length = source.content.length ∧ rank decoder'.state < rank decoder.state := by
  unfold turn at h
  split at h
  · cases h
  · rename_i hstate
    cases h
    exact .inr ⟨rfl, by rw [hstate]; exact Nat.one_pos⟩
  · exact absurd h dataTurn_ne_silent
  · split at h
    · cases h
    · rename_i hline
      simp only at h
      split at h <;> cases h
      exact .inl (content_consume_line rfl hline)
  · exact absurd h dataTurn_ne_silent
  · split at h
    · rename_i source'' hensured
      split at h <;> cases h
      exact .inl (content_consume_delimiter hensured)
    · cases h
  · unfold trailerTurn at h
    simp only at h
    split at h
    · cases h
    · rename_i hline
      split at h
      · split at h
        · cases h
        · split at h <;> cases h
      · split at h <;> cases h
        exact .inl (content_consume_line rfl hline)

/-- The next frame of a body, and `none` at its end. -/
def nextFrame (decoder : BodyDecoder) (source : Source UInt8) :
    Except IngressError (Option BodyFrame) × BodyDecoder × Source UInt8 :=
  match _h : decoder.turn source with
  | .silent decoder source => nextFrame decoder source
  | .frame frame decoder source => (.ok (some frame), decoder, source)
  | .finished decoder source => (.ok none, decoder, source)
  | .failed error decoder source => (.error error, decoder, source)
termination_by (source.content.length, rank decoder.state)
decreasing_by
  rcases turn_silent _h with hlt | ⟨heq, hlt⟩
  · exact Prod.Lex.left _ _ hlt
  · rw [heq]
    exact Prod.Lex.right _ hlt

/-! ### Turns on what is buffered -/

theorem nextFrame_silent {decoder' : BodyDecoder} {source' : Source UInt8}
    (h : decoder.turn source = .silent decoder' source') :
    decoder.nextFrame source = decoder'.nextFrame source' := by
  rw [nextFrame]
  split <;> simp_all

theorem nextFrame_turn {frame : BodyFrame} {decoder' : BodyDecoder} {source' : Source UInt8}
    (h : decoder.turn source = .frame frame decoder' source') :
    decoder.nextFrame source = (.ok (some frame), decoder', source') := by
  rw [nextFrame]
  split <;> simp_all

theorem turn_size {length size : ℕ} (hstate : decoder.state = .chunkSize)
    (hscan : (lineSearch .badRequest).scan chunkLineLimit source.buffered = some (.ok length))
    (hsize : parseChunkSize (source.buffered.take (length - 2)) = .ok size) :
    decoder.turn source =
      .silent { decoder with state := if size = 0 then .trailers else .chunkData size }
        (source.consume length) := by
  simp only [turn, hstate, Search.read_of_scan hscan, hsize]

theorem turn_dataEnd (hstate : decoder.state = .chunkDataEnd) (hend : source.buffered.take 2 = crlf) :
    decoder.turn source = .silent { decoder with state := .chunkSize } (source.consume 2) := by
  have hlength : 2 ≤ source.buffered.length := by
    have := congrArg List.length hend
    rw [List.length_take] at this
    exact this.symm.trans_le (Nat.min_le_right _ _)
  have hpass : source.pass (ensured 2) 2 (2 - ·) = .stop (.decided ()) := by
    rw [Source.pass, ensured, if_pos hlength]
  have hbuffered : ensureBuffered 2 source = (.decided (), source) := Source.fill_of_stop hpass
  simp only [turn, hstate, hbuffered, hend, ne_eq, not_true_eq_false, if_false]

theorem turn_trailer {length : ℕ} {headers : HeaderMap} (hstate : decoder.state = .trailers)
    (hscan : (lineSearch .headersTooLarge).scan (headerSectionLimit - decoder.trailerOctets)
      source.buffered = some (.ok length))
    (hline : (source.buffered.take (length - 2)).isEmpty = false)
    (hparse : appendFieldLine decoder.trailerHeaders (source.buffered.take (length - 2)) = .ok headers) :
    decoder.turn source =
      .silent { decoder with
        trailerHeaders := headers, trailerOctets := decoder.trailerOctets + length }
          (source.consume length) := by
  simp only [turn, hstate, trailerTurn, Search.read_of_scan hscan, hline, hparse, Bool.false_eq_true,
    if_false]

theorem turn_trailers {length : ℕ} (hstate : decoder.state = .trailers)
    (hscan : (lineSearch .headersTooLarge).scan (headerSectionLimit - decoder.trailerOctets)
      source.buffered = some (.ok length))
    (hline : (source.buffered.take (length - 2)).isEmpty = true)
    (hvalid : validateTrailers decoder.trailerHeaders = .ok ())
    (hsome : decoder.trailerHeaders.isEmpty = false) :
    ∃ decoder', decoder.turn source =
      .frame (.trailers decoder.trailerHeaders) decoder' (source.consume length) := by
  simp only [turn, hstate, trailerTurn, Search.read_of_scan hscan, hline, hvalid, hsome,
    Bool.false_eq_true, if_false, if_true]
  exact ⟨_, rfl⟩

/-! ## Whole bodies -/

/-- The turn that yields what a call for the next frame yields. -/
def frameTurn : Except IngressError (Option BodyFrame) × BodyDecoder × Source UInt8 → Turn
  | (.ok (some frame), decoder, source) => .frame frame decoder source
  | (.ok none, decoder, source) => .finished decoder source
  | (.error error, decoder, source) => .failed error decoder source

theorem TurnLaw.of_eq {decoder' : BodyDecoder} {source' : Source UInt8} {turn : Turn}
    (h : decoder.bodyOfContent source.content = decoder'.bodyOfContent source'.content)
    (hlaw : TurnLaw decoder' source' turn) : TurnLaw decoder source turn := by
  rcases turn with _ | ⟨frame | frame, _, _⟩ | _ | _ <;> simp only [TurnLaw, h] <;> exact hlaw

/-- The next frame takes a part of the body. -/
theorem nextFrame_law (hready : Ready decoder source) :
    TurnLaw decoder source (frameTurn (decoder.nextFrame source)) := by
  have hlaw := turn_law hready
  fun_induction nextFrame decoder source with
  | case1 decoder source decoder' source' hturn ih =>
    rw [hturn] at hlaw
    exact (ih hlaw.2 (turn_law hlaw.2)).of_eq hlaw.1
  | case2 decoder source frame decoder' source' hturn =>
    rw [hturn] at hlaw
    exact hlaw
  | case3 decoder source decoder' source' hturn =>
    rw [hturn] at hlaw
    exact hlaw
  | case4 decoder source error decoder' source' hturn =>
    rw [hturn] at hlaw
    exact hlaw

theorem turn_data {data : Bytes} {decoder' : BodyDecoder} {source' : Source UInt8}
    (h : decoder.turn source = .frame (.data data) decoder' source') :
    source'.content.length < source.content.length := by
  have hdata {remaining : ℕ} {after : ℕ → DecoderState}
      (h : decoder.dataTurn remaining after source = .frame (.data data) decoder' source') :
      source'.content.length < source.content.length := by
    unfold dataTurn at h
    split at h
    · cases h
    · rename_i hne hread
      cases h
      exact Source.length_content_takeSome ((readBodyData_eq _ _).symm.trans hread) hne
  unfold turn at h
  split at h
  · cases h
  · cases h
  · exact hdata h
  · split at h
    · cases h
    · simp only at h
      split at h <;> cases h
  · exact hdata h
  · split at h
    · split at h <;> cases h
    · cases h
  · unfold trailerTurn at h
    simp only at h
    split at h
    · cases h
    · split at h
      · split at h
        · cases h
        · split at h <;> cases h
      · split at h <;> cases h

/-- Data that is yielded is taken from the stream. -/
theorem nextFrame_data {data : Bytes} {decoder' : BodyDecoder} {source' : Source UInt8}
    (h : decoder.nextFrame source = (.ok (some (.data data)), decoder', source')) :
    source'.content.length < source.content.length := by
  fun_induction nextFrame decoder source with
  | case1 decoder source d s hturn ih =>
    have hlt := ih h
    rcases turn_silent hturn with hle | ⟨heq, -⟩
    · exact hlt.trans hle
    · exact heq ▸ hlt
  | case2 decoder source frame d s hturn =>
    cases h
    exact turn_data hturn
  | case3 decoder source d s hturn => cases h
  | case4 decoder source error d s hturn => cases h

/-- A body is read by asking for frames until there is none, or trailers or an error. -/
def readBody (decoder : BodyDecoder) (source : Source UInt8) : Body :=
  match _h : decoder.nextFrame source with
  | (.ok (some (.data data)), decoder, source) => (readBody decoder source).prepend data
  | (.ok (some (.trailers trailers)), _, source) => ⟨[], .ok (some trailers, source.content)⟩
  | (.ok none, _, source) => ⟨[], .ok (none, source.content)⟩
  | (.error error, _, _) => ⟨[], .error error⟩
termination_by source.content.length
decreasing_by exact nextFrame_data _h

theorem readBody_eq (hready : Ready decoder source) :
    decoder.readBody source = decoder.bodyOfContent source.content := by
  have hlaw := nextFrame_law hready
  fun_induction readBody decoder source with
  | case1 decoder source data decoder' source' hframe ih =>
    rw [hframe] at hlaw
    obtain ⟨-, hready', hbody⟩ := hlaw
    rw [hbody, ih hready' (nextFrame_law hready')]
  | case2 decoder source trailers decoder' source' hframe =>
    rw [hframe] at hlaw
    exact hlaw.2.2.symm
  | case3 decoder source decoder' source' hframe =>
    rw [hframe] at hlaw
    exact hlaw.2.2.symm
  | case4 decoder source error decoder' source' hframe =>
    rw [hframe] at hlaw
    exact Eq.symm hlaw

/-! ## What is left of the stream -/

end BodyDecoder

/-- The decoder and the stream after a turn that did not fail. -/
def Turn.next : Turn → Option (BodyDecoder × Source UInt8)
  | .silent decoder source | .frame _ decoder source | .finished decoder source =>
    some (decoder, source)
  | .failed .. => none

namespace BodyDecoder

variable {decoder : BodyDecoder} {source : Source UInt8}

theorem ready_next {decoder' : BodyDecoder} {source' : Source UInt8} (hready : Ready decoder source)
    (h : (decoder.turn source).next = some (decoder', source')) : Ready decoder' source' := by
  have hlaw := turn_law hready
  cases hturn : decoder.turn source with
  | silent d s =>
    rw [hturn] at hlaw h
    obtain ⟨rfl, rfl⟩ := Prod.mk.inj (Option.some.inj h)
    exact hlaw.2
  | frame frame d s =>
    rw [hturn] at hlaw h
    obtain ⟨rfl, rfl⟩ := Prod.mk.inj (Option.some.inj h)
    cases frame <;> exact hlaw.2.1
  | finished d s =>
    rw [hturn] at hlaw h
    obtain ⟨rfl, rfl⟩ := Prod.mk.inj (Option.some.inj h)
    exact hlaw.2.1
  | failed error d s =>
    rw [hturn] at h
    cases h

omit [HttpCrate] in
/-- A line that is taken leaves an end of the stream. -/
theorem suffix_consume_line {tooLong : IngressError} {limit : ℕ} {room : ℕ → ℕ}
    {source source' : Source UInt8} {n : ℕ}
    (h : (lineSearch tooLong).read limit room source = (.ok n, source')) :
    (source'.consume n).content <:+ source.content := by
  have hn : ((lineSearch tooLong).read limit room source).1 = .ok n := by rw [h]
  have hconsume := Search.content_consume_read hn
  rw [h] at hconsume
  rw [hconsume]
  exact List.drop_suffix n _

theorem suffix_dataTurn {remaining : ℕ} {after : ℕ → DecoderState} {decoder' : BodyDecoder}
    {source' : Source UInt8}
    (h : (decoder.dataTurn remaining after source).next = some (decoder', source')) :
    source'.content <:+ source.content := by
  have hcontent := content_readBodyData (min remaining requestBodyFrameLimit) source
  unfold dataTurn at h
  split at h
  · cases h
  · rename_i hread
    obtain ⟨-, rfl⟩ := Prod.mk.inj (Option.some.inj h)
    rw [hread] at hcontent
    exact ⟨_, hcontent⟩

/-- **A turn leaves an end of the stream.** -/
theorem suffix_next {decoder' : BodyDecoder} {source' : Source UInt8}
    (h : (decoder.turn source).next = some (decoder', source')) :
    source'.content <:+ source.content := by
  unfold turn at h
  split at h
  · obtain ⟨-, rfl⟩ := Prod.mk.inj (Option.some.inj h)
    exact List.suffix_rfl
  · obtain ⟨-, rfl⟩ := Prod.mk.inj (Option.some.inj h)
    exact List.suffix_rfl
  · exact suffix_dataTurn h
  · split at h
    · cases h
    · rename_i hline
      simp only at h
      split at h
      · cases h
      · obtain ⟨-, rfl⟩ := Prod.mk.inj (Option.some.inj h)
        exact suffix_consume_line hline
  · exact suffix_dataTurn h
  · split at h
    · rename_i source'' hensured
      split at h
      · cases h
      · obtain ⟨-, rfl⟩ := Prod.mk.inj (Option.some.inj h)
        have hcontent := content_ensureBuffered 2 source
        have hle := ensureBuffered_decided (congrArg Prod.fst hensured)
        rw [hensured] at hcontent hle
        rw [Source.content_consume hle, hcontent]
        exact List.drop_suffix 2 _
    · cases h
  · unfold trailerTurn at h
    simp only at h
    split at h
    · cases h
    · rename_i hline
      have hsuffix := suffix_consume_line hline
      split at h
      · split at h
        · cases h
        · split at h <;> (obtain ⟨-, rfl⟩ := Prod.mk.inj (Option.some.inj h); exact hsuffix)
      · split at h
        · cases h
        · obtain ⟨-, rfl⟩ := Prod.mk.inj (Option.some.inj h)
          exact hsuffix

end BodyDecoder

end Vhrn.Proxy
