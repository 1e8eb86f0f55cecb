import Vhrn.Proxy.Connect.OriginStream
import Vhrn.Proxy.Connect.ResponseFrames
import Vhrn.Proxy.Server.DeliveredHead

/-!
# The response that a client reads

A response is written to the client as its head and, frame by frame as the origin decoder yields them, its
body. `ResponseRun` is what the proxy wrote of one response, to its end or to where the body failed. A client
reads heads by the grammar of the proxy and bodies by the framing of the head (`clientResponse`). What it
reads is the response of the origin, and a response that failed is not read as a whole one, unless it ends
with the connection, as it does only for a client of HTTP/1.0 (`response_delivered`).
-/

namespace Vhrn.Proxy

variable [HttpCrate]

/-! ## Trailers -/

/-- The fields of a trailer section are trimmed. -/
theorem trimmed_rawBody {state : OriginDecoderState} {content rest : Bytes} {trailers : HeaderMap}
    (h : ∀ headers rawOctets, state = .trailers headers rawOctets → Trimmed headers)
    (hbody : (state.rawBody content).ending = .ok (trailers, rest)) : Trimmed trailers := by
  fun_induction OriginDecoderState.rawBody state content
  case case1 | case3 | case16 =>
    obtain ⟨rfl, -⟩ := Prod.mk.inj (Except.ok.inj hbody)
    exact trimmed_empty
  case case6 ih =>
    refine ih (fun headers rawOctets hstate => ?_) hbody
    split at hstate
    · obtain ⟨rfl, -⟩ := OriginDecoderState.trailers.inj hstate
      exact trimmed_empty
    · cases hstate
  case case8 ih | case11 ih => exact ih (fun _ _ hstate => nomatch hstate) hbody
  case case13 =>
    obtain ⟨rfl, -⟩ := Prod.mk.inj (Except.ok.inj hbody)
    exact h _ _ rfl
  case case15 happend ih =>
    refine ih (fun headers rawOctets hstate => ?_) hbody
    obtain ⟨rfl, -⟩ := OriginDecoderState.trailers.inj hstate
    exact (h _ _ rfl).appendFieldLine happend
  all_goals cases hbody

/-- **The trailers of a response that go on are trimmed.** -/
theorem trimmed_originTrailers {framing : OriginBodyFraming} {nominations : List HeaderName}
    {content data rest : Bytes} {trailers : HeaderMap}
    (hbody : (OriginDecoder.new framing nominations).bodyOfContent content =
      ⟨data, .ok (some trailers, rest)⟩) : Trimmed trailers := by
  have hending := congrArg OriginBody.ending hbody
  unfold OriginDecoder.bodyOfContent RawBody.origin at hending
  simp only at hending
  split at hending
  · cases hending
  · rename_i headers rest' hraw
    have htrimmed : Trimmed headers := by
      refine trimmed_rawBody (fun headers rawOctets hstate => ?_) hraw
      cases framing <;> cases hstate
    unfold originTrailers at hending
    split at hending
    · cases hending
    · rename_i hkept
      split at hkept
      · cases hkept
      · split at hkept
        · cases hkept
        · rename_i sanitized hsanitized
          obtain rfl := Except.ok.inj hkept
          obtain ⟨hsome, -⟩ := Prod.mk.inj (Except.ok.inj hending)
          split at hsome
          · cases hsome
          · exact Option.some.inj hsome ▸ (htrimmed.sanitize hsanitized).removeAll nominations

section

variable {nominations : List HeaderName} {content : Bytes}

theorem bodyOfContent_none :
    (OriginDecoder.new .none nominations).bodyOfContent content = ⟨[], .ok (none, content)⟩ := by
  rw [@OriginDecoder.bodyOfContent_of_state _ _ .complete rfl, OriginDecoderState.rawBody_complete,
    origin_end]

theorem bodyOfContent_length {length : ℕ} :
    (OriginDecoder.new (.contentLength length) nominations).bodyOfContent content =
      if content.length < length then ⟨content, .error .incomplete⟩
      else ⟨content.take length, .ok (none, content.drop length)⟩ := by
  rw [@OriginDecoder.bodyOfContent_of_state _ _ (.fixed length) rfl, OriginDecoderState.rawBody_fixed]
  split
  · rfl
  · rw [origin_end]

end

/-! ## Writing -/

/-- A frame of the origin decoder as it is written. -/
def BodyFrame.wire : BodyFrame → Frame
  | .data bytes => .data bytes
  | .trailers headers => .trailers headers

omit [HttpCrate] in
theorem dataText_cons (chunked : Bool) (piece : Bytes) (pieces : List Bytes) :
    dataText chunked (piece :: pieces) =
      (if chunked then chunkPrefix piece.length ++ piece ++ crlf else piece) ++ dataText chunked pieces := by
  cases chunked
  · simp [dataText]
  · simp [dataText, ChunkedCoding.chunks, ChunkedCoding.chunk, chunkPrefix, crlf]

/-- The data is written first. -/
theorem writeResponseBody_data (chunked : Bool) {pieces : List Bytes}
    (hpieces : ∀ piece ∈ pieces, piece ≠ []) (frames : List (Option Frame)) :
    writeResponseBody chunked (pieces.map (fun piece => some (.data piece)) ++ frames) =
      (dataText chunked pieces ++ (writeResponseBody chunked frames).1,
        (writeResponseBody chunked frames).2) := by
  induction pieces with
  | nil => cases chunked <;> rfl
  | cons piece pieces ih =>
    have hne : piece.isEmpty = false := List.isEmpty_eq_false_iff.mpr (hpieces piece List.mem_cons_self)
    rw [List.map_cons, List.cons_append, writeResponseBody,
      ih fun p hp => hpieces p (List.mem_cons_of_mem _ hp), dataText_cons]
    simp only [hne, Bool.false_eq_true, if_false]
    cases chunked <;> simp

/-- The end of a body is written as the end of an encoding. -/
theorem writeResponseBody_end (chunked : Bool) (trailers : Option HeaderMap) :
    writeResponseBody chunked (trailers.toList.map fun trailers => some (.trailers trailers)) =
      (endText chunked ((trailers.map HeaderMap.fields).getD []), true) := by
  cases chunked
  · cases trailers <;> rfl
  · cases trailers with
    | none =>
      show (_, true) = _
      rw [Option.map_none, Option.getD_none, endText_fields]
      rfl
    | some trailers =>
      rw [Option.map_some, Option.getD_some, endText_fields]
      rfl

/-! ## Reading -/

/-- A response as a client reads it. -/
structure ClientResponse where
  head : OriginResponseHead
  data : Bytes
  trailers : List ChunkedCoding.Field

/-- The data and the trailers of a response body with the given framing at the start of a text, and what
follows. Nothing follows a body that ends with the connection. -/
def clientBody (framing : OriginBodyFraming) (text : Bytes) :
    Option ((Bytes × List ChunkedCoding.Field) × Bytes) :=
  match framing with
  | .none => originBody .none text
  | .contentLength length => originBody (.contentLength length) text
  | .chunked => originBody .chunked text
  | .closeDelimited => some ((text, []), [])

/-- The response to a request with the given method at the start of a text, and what follows it. -/
def clientResponse (method : Method) (text : Bytes) : Option (ClientResponse × Bytes) :=
  match responseHeadOfContent method text with
  | .ok (head, followed) => (clientBody head.framing followed).map fun ((data, trailers), rest) =>
      (⟨head, data, trailers⟩, rest)
  | .error _ => none

omit [HttpCrate] in
theorem extends_clientBody {framing : OriginBodyFraming} (h : framing ≠ .closeDelimited) :
    Extends (clientBody framing) := by
  cases framing with
  | none => exact extends_originBody .none
  | contentLength length => exact extends_originBody (.contentLength length)
  | chunked => exact extends_originBody .chunked
  | closeDelimited => exact absurd rfl h

/-! ## Runs -/

/-- A final response that goes on: its head in the stream of the origin, the fields that are sent to the
client, and the connection to the origin after the head. -/
structure InboundResponse where
  content : Bytes
  method : Method
  version : Version
  head : OriginResponseHead
  followed : Bytes
  headers : HeaderMap
  nominated : List HeaderName
  close : Bool
  source : Source UInt8
  found : responseHeadOfContent method content = .ok (head, followed)
  final : head.status.isInformational = false
  forwards : forwardResponseHead version head = some (headers, nominated)
  modest : Modest source
  follows : source.content = followed

namespace InboundResponse

variable (response : InboundResponse)

def prepared : PreparedHead :=
  delivered response.version response.head response.headers response.method response.close

def half : ResponseHalf := ⟨.new response.head.framing response.nominated, response.source, none⟩

/-- The body as the origin sends it. -/
def body : OriginBody :=
  (OriginDecoder.new response.head.framing response.nominated).bodyOfContent response.followed

/-- The framing of the response to the client. -/
def framing : OriginBodyFraming := deliveredFraming response.head response.nominated response.prepared

theorem prepares : Prepared response.version response.head response.nominated response.method
    response.close response.prepared := prepared_delivered response.forwards _ _

theorem reframed : Reframed response.version response.head response.prepared response.framing := by
  obtain ⟨firstLine, headerSection, hparse, -⟩ := responseHeadOfContent_eq_ok response.found
  exact reframed_delivered hparse response.prepares

end InboundResponse

/-- What the proxy wrote of one response, in some run of the response half: the frames, and whether the body
ended after them. -/
structure ResponseRun extends InboundResponse where
  reached : ResponseHalf
  frames : List BodyFrame
  ended : Bool
  yields : toInboundResponse.half.Yields reached frames
  ends : ended = true → reached.frame = none ∧
    (reached.decoder.nextFrame reached.source).1.toOption = some none

namespace ResponseRun

/-- The octets of the body, and whether it was written to its end. Where the body did not end it may have
failed. -/
def written (run : ResponseRun) : Bytes × Bool :=
  writeResponseBody run.prepared.chunked <|
    run.frames.map (fun frame => some frame.wire) ++ if run.ended then [] else [none]

/-- The octets of the body. -/
def bodyOctets (run : ResponseRun) : Bytes := if run.prepared.bodyAllowed then run.written.1 else []

/-- What the client is sent. -/
def octets (run : ResponseRun) : Bytes := run.prepared.head ++ run.bodyOctets

/-- The response was written to its end. -/
def complete (run : ResponseRun) : Bool := !run.prepared.bodyAllowed || run.written.2

/-- The trailers that a client of the given version gets. -/
def clientTrailers (version : Version) (trailers : Option HeaderMap) : List ChunkedCoding.Field :=
  if version = .http10 then [] else ((trailers.map HeaderMap.fields).getD []).map wireField

/-- The response is that of the origin: its status and the fields that go on, its whole data, and for a
client that knows them its trailers. -/
def Delivers (run : ResponseRun) (response : ClientResponse) : Prop :=
  DeliveredAs run.version run.head run.nominated run.prepared response.head ∧
  ∃ trailers rest, run.body = ⟨response.data, .ok (trailers, rest)⟩ ∧
    response.trailers = clientTrailers run.version trailers

variable {run : ResponseRun} {part rest : Bytes} {response : ClientResponse}

/-- What is written of a body is a start of its data, or the whole of it with its trailers. -/
theorem written_cases (run : ResponseRun) : ∃ pieces : List Bytes, (∀ piece ∈ pieces, piece ≠ []) ∧
    (pieces.flatten <+: run.body.data ∧
        run.written = (dataText run.prepared.chunked pieces, false) ∨
      ∃ trailers rest, run.body = ⟨pieces.flatten, .ok (trailers, rest)⟩ ∧
        run.written = (dataText run.prepared.chunked pieces ++
          endText run.prepared.chunked ((trailers.map HeaderMap.fields).getD []), true)) := by
  have hdecoded := ResponseHalf.frames_run run.modest run.yields
  rw [run.follows, ← InboundResponse.body] at hdecoded
  have hwire (pieces : List Bytes) : (pieces.map BodyFrame.data).map (fun frame => some frame.wire) =
      pieces.map fun piece => some (.data piece) := by
    rw [List.map_map]
    rfl
  have hfields (trailers : Option HeaderMap) :
      (trailers.toList.map BodyFrame.trailers).map (fun frame => some frame.wire) =
        trailers.toList.map fun trailers => some (.trailers trailers) := by
    rw [List.map_map]
    rfl
  unfold written
  cases hended : run.ended with
  | true =>
    obtain ⟨hnone, hnext⟩ := run.ends hended
    have hreached : run.reached = ⟨run.reached.decoder, run.reached.source, none⟩ := by
      rw [← hnone]
    rcases hframe : run.reached.decoder.nextFrame run.reached.source with ⟨error | frame, decoder, source⟩
    · rw [hframe] at hnext
      cases hnext
    · rw [hframe] at hnext
      obtain rfl := Option.some.inj hnext
      rw [hreached] at hdecoded
      obtain ⟨pieces, trailers, hpieces, hframes, -, hbody⟩ := ResponseHalf.decoded_end hdecoded hframe
      refine ⟨pieces, hpieces, .inr ⟨trailers, _, hbody, ?_⟩⟩
      rw [hframes, List.map_append, hwire, hfields, if_pos rfl, List.append_nil,
        writeResponseBody_data _ hpieces, writeResponseBody_end]
  | false =>
    rw [if_neg Bool.false_ne_true]
    cases hdecoded with
    | @reading pieces hpieces hframes _ hbody =>
      refine ⟨pieces, hpieces, .inl ⟨⟨_, (congrArg OriginBody.data hbody).symm⟩, ?_⟩⟩
      rw [hframes, hwire, writeResponseBody_data _ hpieces]
      exact Prod.ext (List.append_nil _) rfl
    | @done pieces trailers hpieces hframes _ hbody =>
      have hdata : pieces.flatten <+: run.body.data := by
        rw [show run.body.data = pieces.flatten from congrArg OriginBody.data hbody]
      refine ⟨pieces, hpieces, ?_⟩
      rw [hframes, List.map_append, hwire, hfields, List.append_assoc, writeResponseBody_data _ hpieces]
      cases trailers with
      | none => exact .inl ⟨hdata, Prod.ext (List.append_nil _) rfl⟩
      | some trailers =>
        cases hchunked : run.prepared.chunked with
        | false => exact .inl ⟨hdata, Prod.ext (List.append_nil _) rfl⟩
        | true =>
          -- trailers end a chunked body, whether or not its end is asked for
          refine .inr ⟨some trailers, _, hbody, ?_⟩
          have hend := writeResponseBody_end true (some trailers)
          rw [← (Prod.mk.inj hend).1]
          rfl

/-- A body without framing. -/
theorem body_none (h : run.head.framing = .none) : run.body = ⟨[], .ok (none, run.followed)⟩ := by
  rw [InboundResponse.body, h, bodyOfContent_none]

/-- A response that may have no body has none. -/
theorem framing_bodyless (h : run.prepared.bodyAllowed = false) :
    run.framing = .none ∧ run.head.framing = .none := by
  have hreframed := run.reframed
  generalize run.framing = framing at hreframed
  cases hreframed with
  | none _ horigin => exact ⟨rfl, horigin⟩
  | chunked hbodied | contentLength hbodied | closeDelimited hbodied =>
    rw [h] at hbodied
    cases hbodied

/-- A body of a fixed length has so many octets and no trailers. -/
theorem body_length {length : ℕ} (h : run.head.framing = .contentLength length) : run.body =
    if run.followed.length < length then ⟨run.followed, .error .incomplete⟩
    else ⟨run.followed.take length, .ok (none, run.followed.drop length)⟩ := by
  rw [InboundResponse.body, h, bodyOfContent_length]

theorem clientTrailers_none (version : Version) : clientTrailers version none = [] := by
  rw [clientTrailers]
  exact ite_self _

/-- The trailers of a body can be written. -/
theorem plain_trailers {data : Bytes} {trailers : Option HeaderMap}
    (hbody : run.body = ⟨data, .ok (trailers, rest)⟩) :
    ∀ field ∈ ((trailers.map HeaderMap.fields).getD []).map wireField, ChunkedCoding.Plain field := by
  intro field hfield
  obtain ⟨⟨name, value⟩, hmem, rfl⟩ := List.mem_map.mp hfield
  refine ⟨name.validToken_asStr, cr_not_mem_value value, ?_⟩
  cases trailers with
  | none => cases hmem
  | some trailers => exact trimmed_originTrailers hbody name value (HeaderMap.mem_fields.mp hmem)

/-- **A body that is written is read as that body.** -/
theorem read_encoding {pieces : List Bytes} (hpieces : ∀ piece ∈ pieces, piece ≠ [])
    {trailers : Option HeaderMap} (hbody : run.body = ⟨pieces.flatten, .ok (trailers, rest)⟩)
    (hallowed : run.prepared.bodyAllowed = true) :
    clientBody run.framing (dataText run.prepared.chunked pieces ++
        endText run.prepared.chunked ((trailers.map HeaderMap.fields).getD [])) =
      some ((pieces.flatten, clientTrailers run.version trailers), []) := by
  have hplain : dataText false pieces ++ endText false ((trailers.map HeaderMap.fields).getD []) =
    pieces.flatten := List.append_nil _
  have hreframed := run.reframed
  generalize run.framing = framing at hreframed
  cases hreframed with
  | none hnot =>
    rw [hallowed] at hnot
    cases hnot
  | chunked _ hchunked hversion =>
    have hdecode := ChunkedCoding.decode_encode hpieces (plain_trailers hbody) []
    rw [List.append_nil] at hdecode
    rw [hchunked, clientTrailers, hversion, if_neg Version.noConfusion, clientBody, originBody]
    show (ChunkedCoding.decode (ChunkedCoding.encode pieces _)).map _ = _
    rw [hdecode]
    rfl
  | @contentLength length _ hchunked horigin =>
    have hlength := (body_length horigin).symm.trans hbody
    rw [hchunked, hplain, clientBody, originBody]
    split at hlength
    · cases (OriginBody.mk.inj hlength).2
    · obtain ⟨hdata, hending⟩ := OriginBody.mk.inj hlength
      obtain ⟨rfl, -⟩ := Prod.mk.inj (Except.ok.inj hending)
      have hfits : pieces.flatten.length = length := by
        rw [← hdata, List.length_take]
        omega
      rw [if_pos hfits.ge, ← hfits, List.take_length, List.drop_length, clientTrailers_none]
  | closeDelimited _ hchunked hversion =>
    rw [hchunked, hplain, clientTrailers, hversion, if_pos rfl]
    rfl

/-- **What the client has of a body is read only as the whole body**, unless the body ends with the
connection. -/
theorem read_body {data : Bytes} {trailers : List ChunkedCoding.Field} (hpart : part <+: run.bodyOctets)
    (hframed : run.framing ≠ .closeDelimited)
    (h : clientBody run.framing part = some ((data, trailers), rest)) :
    rest = [] ∧ ∃ originTrailers originRest, run.body = ⟨data, .ok (originTrailers, originRest)⟩ ∧
      trailers = clientTrailers run.version originTrailers := by
  obtain ⟨pieces, hpieces, hwritten⟩ := run.written_cases
  unfold bodyOctets at hpart
  cases hallowed : run.prepared.bodyAllowed with
  | false =>
    rw [hallowed, if_neg Bool.false_ne_true, List.prefix_nil] at hpart
    obtain ⟨hframing, horigin⟩ := framing_bodyless hallowed
    rw [hpart, hframing] at h
    obtain ⟨heq, rfl⟩ := Prod.mk.inj (Option.some.inj h)
    obtain ⟨rfl, rfl⟩ := Prod.mk.inj heq
    exact ⟨rfl, none, _, body_none horigin, (clientTrailers_none _).symm⟩
  | true =>
    rw [hallowed, if_pos rfl] at hpart
    rcases hwritten with ⟨hdata, hwritten⟩ | ⟨originTrailers, originRest, hbody, hwritten⟩
    · rw [hwritten] at hpart
      have hreframed := run.reframed
      generalize run.framing = framing at hreframed h hframed
      cases hreframed with
      | none hnot =>
        rw [hallowed] at hnot
        cases hnot
      | closeDelimited => exact absurd rfl hframed
      | chunked _ hchunked =>
        rw [hchunked] at hpart
        exact absurd h (RequestRun.not_read_chunks hpieces hpart)
      | @contentLength length _ hchunked horigin =>
        rw [hchunked] at hpart
        have hstarts : part <+: run.body.data := hpart.trans hdata
        have hle := hstarts.length_le
        have hbody := body_length horigin
        unfold clientBody originBody at h
        simp only at h
        split at h
        · rename_i hlength
          obtain ⟨heq, rfl⟩ := Prod.mk.inj (Option.some.inj h)
          obtain ⟨rfl, rfl⟩ := Prod.mk.inj heq
          split at hbody
          · rename_i hshort
            rw [hbody] at hle
            exact absurd (hlength.trans hle) (Nat.not_le.mpr hshort)
          · rw [hbody] at hstarts hle
            have hshort : part.length ≤ length := hle.trans (by rw [List.length_take]; omega)
            have hsame : part = run.followed.take length := by
              refine hstarts.eq_of_length_le ?_
              rw [List.length_take]
              omega
            refine ⟨List.drop_eq_nil_of_le hshort, none, run.followed.drop length, ?_,
              (clientTrailers_none _).symm⟩
            rw [List.take_of_length_le hshort, hbody, ← hsame]
        · cases h
    · rw [hwritten] at hpart
      have hwhole := read_encoding hpieces hbody hallowed
      obtain ⟨-, heq, rfl⟩ := (extends_clientBody hframed).eq_of_starts hwhole hpart h
      obtain ⟨rfl, rfl⟩ := Prod.mk.inj heq
      exact ⟨rfl, originTrailers, originRest, hbody, rfl⟩

/-- The head of a run is read, unless it is too long. -/
theorem read_head (run : ResponseRun) : ∃ head,
    DeliveredAs run.version run.head run.nominated run.prepared head ∧
      ReadAsHead run.method run.prepared.head head :=
  read_delivered run.found run.prepares

/-- A part of a response of which a response is read is the head and a part of the body. -/
theorem parts_of_read (hpart : part <+: run.octets)
    (h : clientResponse run.method part = some (response, rest)) :
    DeliveredAs run.version run.head run.nominated run.prepared response.head ∧
      ∃ sent, sent <+: run.bodyOctets ∧
        clientBody run.framing sent = some ((response.data, response.trailers), rest) := by
  obtain ⟨head, hdelivered, hhead⟩ := run.read_head
  unfold clientResponse at h
  split at h
  · rename_i found followed hfound
    obtain ⟨⟨⟨data, trailers⟩, rest'⟩, hbody, heq⟩ := Option.map_eq_some_iff.mp h
    obtain ⟨rfl, rfl⟩ := Prod.mk.inj heq
    rcases hhead with hok | ⟨-, herror⟩
    · -- a part of the head is no head, since a head ends where it ends
      obtain ⟨sent, rfl, hsent⟩ : ∃ sent, part = run.prepared.head ++ sent ∧ sent <+: run.bodyOctets := by
        rcases List.prefix_or_prefix_of_prefix hpart
            (List.prefix_append run.prepared.head run.bodyOctets) with ⟨more, hmore⟩ | ⟨sent, rfl⟩
        · have happend := responseHeadOfContent_append hfound more
          have hwhole := hok []
          rw [List.append_nil, ← hmore, happend] at hwhole
          obtain ⟨-, hnil⟩ := Prod.mk.inj (Except.ok.inj hwhole)
          obtain ⟨-, rfl⟩ := List.append_eq_nil_iff.mp hnil
          exact ⟨[], by rw [← hmore, List.append_nil, List.append_nil], List.nil_prefix⟩
        · exact ⟨sent, rfl, (List.prefix_append_right_inj _).mp hpart⟩
      rw [hok] at hfound
      obtain ⟨rfl, rfl⟩ := Prod.mk.inj (Except.ok.inj hfound)
      rw [hdelivered.framing] at hbody
      exact ⟨hdelivered, sent, hsent, hbody⟩
    · obtain ⟨more, hmore⟩ := hpart
      have happend := responseHeadOfContent_append hfound more
      obtain ⟨error, herror⟩ := herror run.bodyOctets
      rw [hmore, octets, herror] at happend
      cases happend
  · cases h

/-- **What the client has of a response is read only as the whole response**, unless the body ends with the
connection. -/
theorem read_part (hframed : run.framing ≠ .closeDelimited) (hpart : part <+: run.octets)
    (h : clientResponse run.method part = some (response, rest)) : rest = [] ∧ run.Delivers response := by
  obtain ⟨hdelivered, sent, hsent, hbody⟩ := parts_of_read hpart h
  obtain ⟨hrest, hwhole⟩ := read_body hsent hframed hbody
  exact ⟨hrest, hdelivered, hwhole⟩

/-- A response that was written to its end is read as such, unless its head is too long. What follows it is
not read, unless the body ends with the connection. -/
theorem read_whole (run : ResponseRun) (hcomplete : run.complete = true) :
    (∃ response, run.Delivers response ∧ clientResponse run.method run.octets = some (response, []) ∧
      (run.framing ≠ .closeDelimited →
        ∀ rest, clientResponse run.method (run.octets ++ rest) = some (response, rest))) ∨
    requestLineLimit < run.prepared.head.length ∧
      ∀ rest, clientResponse run.method (run.octets ++ rest) = none := by
  obtain ⟨head, hdelivered, hhead⟩ := run.read_head
  have happend (rest : Bytes) : run.octets ++ rest = run.prepared.head ++ (run.bodyOctets ++ rest) :=
    List.append_assoc _ _ _
  rcases hhead with hok | ⟨hlong, herror⟩
  · left
    obtain ⟨data, trailers, originTrailers, originRest, hread, hbody, htrailers⟩ :
        ∃ data trailers originTrailers originRest,
          clientBody run.framing run.bodyOctets = some ((data, trailers), []) ∧
            run.body = ⟨data, .ok (originTrailers, originRest)⟩ ∧
              trailers = clientTrailers run.version originTrailers := by
      unfold bodyOctets
      cases hallowed : run.prepared.bodyAllowed with
      | false =>
        obtain ⟨hframing, horigin⟩ := framing_bodyless hallowed
        rw [hframing, if_neg Bool.false_ne_true]
        exact ⟨[], [], none, _, rfl, body_none horigin, (clientTrailers_none _).symm⟩
      | true =>
        obtain ⟨pieces, hpieces, hwritten⟩ := run.written_cases
        rw [complete, hallowed, Bool.not_true, Bool.false_or] at hcomplete
        rcases hwritten with ⟨-, hwritten⟩ | ⟨originTrailers, originRest, hbody, hwritten⟩
        · rw [hwritten] at hcomplete
          cases hcomplete
        · rw [if_pos rfl, hwritten]
          exact ⟨_, _, originTrailers, originRest, read_encoding hpieces hbody hallowed, hbody, rfl⟩
    refine ⟨⟨head, data, trailers⟩, ⟨hdelivered, originTrailers, originRest, hbody, htrailers⟩, ?_,
      fun hframed rest => ?_⟩
    · have hfound := hok run.bodyOctets
      rw [clientResponse, octets, hfound]
      simp only [hdelivered.framing]
      rw [← InboundResponse.framing, hread]
      rfl
    · rw [happend, clientResponse, hok]
      simp only [hdelivered.framing]
      have hmore := extends_clientBody hframed rest hread
      rw [← InboundResponse.framing, hmore]
      rfl
  · refine .inr ⟨hlong, fun rest => ?_⟩
    obtain ⟨error, herror⟩ := herror (run.bodyOctets ++ rest)
    rw [happend, clientResponse, herror]

/-- Only for a client of HTTP/1.0, which is told so, does a response end with its connection. -/
theorem closes_of_closeDelimited (h : run.framing = .closeDelimited) :
    run.version = .http10 ∧ run.prepared.close = true ∧ run.prepared.chunked = false := by
  have hreframed := run.reframed
  rw [h] at hreframed
  cases hreframed with
  | closeDelimited _ hchunked hversion hclose => exact ⟨hversion, hclose, hchunked⟩

/-- What is written of a body without chunks is a start of its data. -/
theorem bodyOctets_starts (h : run.prepared.chunked = false) : run.bodyOctets <+: run.body.data := by
  unfold bodyOctets
  split
  · obtain ⟨pieces, -, ⟨hdata, hwritten⟩ | ⟨trailers, rest, hbody, hwritten⟩⟩ := run.written_cases
    · rw [hwritten, h]
      exact hdata
    · rw [hwritten, h, hbody]
      show pieces.flatten ++ [] <+: pieces.flatten
      rw [List.append_nil]
  · exact List.nil_prefix

/-- **Of a response that ends with the connection** the client reads the head and the start of the data that
reached it. -/
theorem read_start (hframed : run.framing = .closeDelimited) (hpart : part <+: run.octets)
    (h : clientResponse run.method part = some (response, rest)) :
    rest = [] ∧ DeliveredAs run.version run.head run.nominated run.prepared response.head ∧
      response.trailers = [] ∧ response.data <+: run.body.data := by
  obtain ⟨hdelivered, sent, hsent, hbody⟩ := parts_of_read hpart h
  rw [hframed] at hbody
  obtain ⟨heq, rfl⟩ := Prod.mk.inj (Option.some.inj hbody)
  obtain ⟨rfl, htrailers⟩ := Prod.mk.inj heq
  exact ⟨rfl, hdelivered, htrailers.symm,
    hsent.trans (bodyOctets_starts (closes_of_closeDelimited hframed).2.2)⟩

end ResponseRun

omit [HttpCrate] in
/-- A response that ends with the connection to the origin goes on in chunks. -/
theorem responseRun_two : let _ := HttpCrate.reference
    ∃ run : ResponseRun, run.complete = true ∧ run.head.framing = .closeDelimited ∧
      run.prepared.chunked = true ∧ run.framing = .chunked ∧ run.body = ⟨[97, 98], .ok (none, [])⟩ ∧
        run.prepared.head.length ≤ requestLineLimit := by
  let _ := HttpCrate.reference
  let text : Bytes := ascii "HTTP/1.1 200 OK" ++ crlf ++ crlf ++ [97, 98]
  have heval : (responseHeadOfContent (ascii "GET") text).toOption.any (fun found =>
      found.1.framing == .closeDelimited && !found.1.status.isInformational && found.2 == [97, 98] &&
        (forwardResponseHead .http11 found.1).any fun forwarded =>
          let prepared := delivered .http11 found.1 forwarded.1 (ascii "GET") false
          prepared.chunked && prepared.bodyAllowed &&
            decide (prepared.head.length ≤ requestLineLimit)) = true := by
    decide +kernel
  obtain ⟨⟨head, followed⟩, hfound, hplain⟩ := (Option.any_eq_true _ _).mp heval
  simp only [Bool.and_eq_true, beq_iff_eq, Bool.not_eq_true'] at hplain
  obtain ⟨⟨⟨horigin, hfinal⟩, rfl⟩, hplain⟩ := hplain
  obtain ⟨⟨headers, nominated⟩, hforward, hplain⟩ := (Option.any_eq_true _ _).mp hplain
  simp only [Bool.and_eq_true, decide_eq_true_eq] at hplain
  obtain ⟨⟨hchunked, hallowed⟩, hfits⟩ := hplain
  let inbound : InboundResponse :=
    { content := text, method := ascii "GET", version := .http11, head, followed := [97, 98], headers,
      nominated, close := false, source := ⟨[97, 98], .empty⟩, found := toOption_eq_some hfound,
      final := hfinal, forwards := hforward, modest := (by decide : 2 ≤ requestLineLimit), follows := rfl }
  let decoder : OriginDecoder := .new .closeDelimited nominated
  have hdata : (OriginDecoder.new head.framing nominated).nextFrame ⟨[97, 98], .empty⟩ =
      (.ok (some (.data [97, 98])), decoder, ⟨[], .empty⟩) := by
    rw [horigin, OriginDecoder.nextFrame]
    rfl
  have hend : (decoder.nextFrame ⟨[], .empty⟩).1 = .ok none := by
    rw [OriginDecoder.nextFrame]
    rfl
  let run : ResponseRun :=
    { inbound with
      reached := ⟨decoder, ⟨[], .empty⟩, none⟩
      frames := [.data [97, 98]]
      ended := true
      yields := .quiet (.frame .start hdata) .written rfl
      ends := fun _ => ⟨rfl, by rw [hend]; rfl⟩ }
  have hcomplete : run.complete = true := by
    have hwritten : run.written.2 = true := by
      rw [ResponseRun.written, show run.prepared.chunked = true from hchunked]
      rfl
    rw [ResponseRun.complete, hwritten, Bool.or_true]
  have hframing : run.framing = .chunked := by
    rw [InboundResponse.framing, deliveredFraming, show run.prepared.bodyAllowed = true from hallowed,
      show run.prepared.chunked = true from hchunked]
    rfl
  have hbody : run.body = ⟨[97, 98], .ok (none, [])⟩ := by
    show OriginDecoder.bodyOfContent (.new head.framing nominated) _ = _
    rw [horigin, @OriginDecoder.bodyOfContent_of_state _ _ .closeDelimited rfl,
      OriginDecoderState.rawBody_closeDelimited, origin_end]
  exact ⟨run, hcomplete, horigin, hchunked, hframing, hbody, hfits⟩

/-- **The response that a client reads is the response of the origin.** The proxy derives its framing anew:
a response of any framing goes on in chunks, with a length, without a body or up to the end of the
connection. Unless it ends with the connection, whatever part of it reached the client, what is read of it
as a response is the whole response that the origin sent, and nothing is left over; a response whose body
failed is not read at all. A response that was written to its end is read as such, unless its head is too
long, and unless it ends with the connection what follows it is not taken for a part of it. Only a client of
HTTP/1.0 gets a response that ends with the connection, and it is told; what it reads then, of a response
that failed too, is the head and a start of the data of the origin's response. -/
theorem response_delivered (run : ResponseRun) :
    (run.framing ≠ .closeDelimited → ∀ part response rest, part <+: run.octets →
      clientResponse run.method part = some (response, rest) → rest = [] ∧ run.Delivers response) ∧
    (run.complete = true →
      (∃ response, run.Delivers response ∧ clientResponse run.method run.octets = some (response, []) ∧
        (run.framing ≠ .closeDelimited →
          ∀ rest, clientResponse run.method (run.octets ++ rest) = some (response, rest))) ∨
      requestLineLimit < run.prepared.head.length ∧
        ∀ rest, clientResponse run.method (run.octets ++ rest) = none) ∧
    (run.framing = .closeDelimited → run.version = .http10 ∧ run.prepared.close = true ∧
      ∀ part response rest, part <+: run.octets →
        clientResponse run.method part = some (response, rest) →
          rest = [] ∧ DeliveredAs run.version run.head run.nominated run.prepared response.head ∧
            response.trailers = [] ∧ response.data <+: run.body.data) := by
  refine ⟨fun hframed _ _ _ => ResponseRun.read_part hframed, run.read_whole, fun hframed => ?_⟩
  obtain ⟨hversion, hclose, -⟩ := ResponseRun.closes_of_closeDelimited hframed
  exact ⟨hversion, hclose, fun _ _ _ => ResponseRun.read_start hframed⟩

omit [HttpCrate] in
theorem response_delivered_two : ∃ (_ : HttpCrate) (run : ResponseRun) (response : ClientResponse),
    run.head.framing = .closeDelimited ∧ run.prepared.chunked = true ∧
      run.Delivers response ∧ response.data = [97, 98] ∧
        ∀ rest, clientResponse run.method (run.octets ++ rest) = some (response, rest) := by
  let _ := HttpCrate.reference
  obtain ⟨run, hcomplete, horigin, hchunked, hframing, hbody, hfits⟩ := responseRun_two
  obtain ⟨response, hdelivers, -, hread⟩ | ⟨hlong, -⟩ := (response_delivered run).2.1 hcomplete
  · have ⟨_, _, _, hsame, _⟩ := hdelivers
    rw [hbody] at hsame
    have hnot : run.framing ≠ .closeDelimited := by
      rw [hframing]
      exact OriginBodyFraming.noConfusion
    exact ⟨_, run, response, horigin, hchunked, hdelivers, (congrArg OriginBody.data hsame).symm, hread hnot⟩
  · exact absurd hfits (Nat.not_le.mpr hlong)

end Vhrn.Proxy
