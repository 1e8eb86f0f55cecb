import Vhrn.Proxy.Connect.RequestWriter
import Vhrn.Proxy.Server.Http1.Messages
import Vhrn.Proxy.Server.Http1.Written

/-!
# What the origin gets of a request body

The octets that the origin has taken (`Sends`), in every run of the request half: any pieces of the
client's stream, any partial writes, any frame that is given up and asked for again. What was taken and
what is left of the queued pieces is always an encoding of the data read so far (`progress`), and the
writer is complete only when the whole encoding of the body was taken (`request_encoding`).
-/

namespace Vhrn.Proxy

open Relation

variable [HttpCrate]

/-! ## What is left to write -/

def trailerText (fields : List (HeaderName × HeaderValue)) : Bytes :=
  (fields.map fieldLine).flatten ++ crlf

/-- What is written after a state, up to the next frame. -/
def RequestState.text : RequestState → Bytes
  | .needFrame | .flush => []
  | .chunkData data => data ++ crlf
  | .chunkEnd => crlf
  | .trailerFields fields => trailerText fields
  | .trailerValuePrefix value fields => ascii ": " ++ (value.asBytes ++ (crlf ++ trailerText fields))
  | .trailerValue value fields => value.asBytes ++ (crlf ++ trailerText fields)
  | .trailerLineEnd fields => crlf ++ trailerText fields

/-- The values of trailers that are written after a state. -/
def RequestState.values : RequestState → List HeaderValue
  | .trailerFields fields | .trailerLineEnd fields => fields.map Prod.snd
  | .trailerValuePrefix value fields | .trailerValue value fields => value :: fields.map Prod.snd
  | .needFrame | .chunkData _ | .chunkEnd | .flush => []

def PendingBytes.values : PendingBytes → List HeaderValue
  | .headerValue value => [value]
  | .bytes _ | .headerName _ => []

/-- No frame is read after the state. -/
def RequestState.isLast : RequestState → Bool
  | .needFrame | .chunkData _ | .chunkEnd => false
  | _ => true

namespace RequestWriter

/-- What is left to write of the frames that were read. -/
def left (writer : RequestWriter) : Bytes :=
  match writer.pending with
  | some pending => pending.bytes.asBytes.drop pending.offset ++ pending.next.text
  | none => writer.state.text

/-- No frame is read any more. -/
def isLast (writer : RequestWriter) : Bool :=
  match writer.pending with
  | some pending => pending.next.isLast
  | none => writer.state.isLast

/-- The values of trailers that are still to be written. -/
def values (writer : RequestWriter) : List HeaderValue :=
  match writer.pending with
  | some pending => pending.bytes.values ++ pending.next.values
  | none => writer.state.values

end RequestWriter

/-! ## Encodings -/

/-- The octets of the data of a body that is given in pieces. -/
def dataText (chunked : Bool) (pieces : List Bytes) : Bytes :=
  if chunked then ChunkedCoding.chunks pieces else pieces.flatten

def wireField (field : HeaderName × HeaderValue) : ChunkedCoding.Field :=
  (field.1.asStr, field.2.asBytes)

/-- The octets after the data of a body with the given trailers. -/
def endText (chunked : Bool) (fields : List (HeaderName × HeaderValue)) : Bytes :=
  if chunked then ChunkedCoding.trailer (fields.map wireField) else []

/-- The trailers that go on to the origin, of those that were read. -/
def forwardedTrailers (nominations : List HeaderName) :
    Option HeaderMap → Option (List (HeaderName × HeaderValue))
  | none => some []
  | some trailers =>
    (sanitizeHopByHop trailers).map fun trailers => ownedFields (removeAll trailers nominations)

omit [HttpCrate] in
theorem dataText_concat (chunked : Bool) (pieces : List Bytes) (piece : Bytes) :
    dataText chunked (pieces ++ [piece]) = dataText chunked pieces ++
      if chunked then chunkPrefix piece.length ++ (piece ++ crlf) else piece := by
  cases chunked
  · simp [dataText]
  · simp [dataText, ChunkedCoding.chunks, ChunkedCoding.chunk, chunkPrefix, crlf]

theorem endText_fields (fields : List (HeaderName × HeaderValue)) :
    endText true fields = 48 :: crlf ++ trailerText fields := by
  have hlines : (fields.map wireField).map ChunkedCoding.fieldLine = fields.map fieldLine := by
    rw [List.map_map]
    rfl
  rw [endText, if_pos rfl, ChunkedCoding.trailer, hlines, trailerText]
  simp [crlf]

/-! ## Runs -/

namespace RequestHalf

/-- A run of the request half, with the octets that the origin took in it. -/
inductive Sends (start : RequestHalf) : RequestHalf → Bytes → Prop
  | start : Sends start start []
  | downstream {half half' : RequestHalf} {sent : Bytes} (h : Sends start half sent)
      (hwaiting : half.writer.waitingOnUpstream = false) (hstep : Step half half') :
      Sends start half' sent
  | upstream {writer writer' : RequestWriter} {source : Source UInt8} {pending : PendingWrite}
      {written : ℕ} {sent : Bytes} (h : Sends start ⟨writer, source⟩ sent)
      (hpending : writer.pending = some pending)
      (hwritten : pending.offset + written ≤ pending.bytes.asBytes.length)
      (hstep : writer.stepUpstream written = .ok writer') :
      Sends start ⟨writer', source⟩ (sent ++ (pending.bytes.asBytes.drop pending.offset).take written)
  | flush {writer : RequestWriter} {source : Source UInt8} {sent : Bytes}
      (h : Sends start ⟨writer, source⟩ sent) (hpending : writer.pending = none)
      (hstate : writer.state = .flush) : Sends start ⟨{ writer with complete := true }, source⟩ sent

variable {start half half' : RequestHalf} {sent : Bytes} {writer writer' : RequestWriter}
  {source source' : Source UInt8}

/-- The octets apart, a run takes steps of the request half. -/
theorem Sends.run (h : Sends start half sent) : ReflTransGen Step start half := by
  induction h with
  | start => exact .refl
  | downstream _ _ hstep ih => exact ih.tail hstep
  | upstream _ hpending hwritten hstep ih =>
    refine ih.tail (.upstream ?_ ?_ hstep)
    · simp [RequestWriter.waitingOnUpstream, hpending]
    · rintro pending hp
      rw [hpending] at hp
      exact Option.some.inj hp ▸ hwritten
  | flush _ hpending hstate ih =>
    refine ih.tail (@Step.upstream _ _ _ _ 0 ?_ ?_ ?_)
    · simp [RequestWriter.waitingOnUpstream, hstate]
    · rintro pending hp
      rw [hpending] at hp
      cases hp
    · simp [RequestWriter.stepUpstream, hpending]

/-- A piece is queued, and the origin takes it as a whole. -/
theorem Sends.piece {bytes : PendingBytes} {next : RequestState} (h : Sends start ⟨writer, source⟩ sent)
    (hwaiting : writer.waitingOnUpstream = false)
    (hstep : writer.stepDownstream source = (.ok (writer'.queue bytes next), source'))
    (hne : bytes.asBytes ≠ []) :
    Sends start ⟨{ writer' with pending := none, state := next }, source'⟩ (sent ++ bytes.asBytes) := by
  have hqueued := h.downstream hwaiting (.downstream hwaiting hstep)
  have htaken := @Sends.upstream _ start _ { writer' with pending := none, state := next } source'
    ⟨bytes, 0, next⟩ bytes.asBytes.length sent hqueued rfl (Nat.zero_add _).le (by
      have hpos : bytes.asBytes.length ≠ 0 := fun h => hne (List.length_eq_zero_iff.mp h)
      simp only [RequestWriter.stepUpstream, RequestWriter.queue, if_neg hpos, Nat.zero_add, if_true])
  rwa [List.drop_zero, List.take_length] at htaken

/-- The values of the fields up to those that are left have been taken, and none of them was empty. -/
def WrittenValues (fields : List (HeaderName × HeaderValue)) (left : List HeaderValue) : Prop :=
  ∃ taken, fields.map Prod.snd = taken ++ left ∧ ∀ value ∈ taken, value.asBytes ≠ []

/-- What was taken and what is left to write is an encoding: of the data that was read, or of the whole
body. -/
inductive Progress (chunked : Bool) (nominations : List HeaderName) (body : Body) (half : RequestHalf)
    (sent : Bytes) : Prop
  | reading {pieces : List Bytes} (hpieces : ∀ piece ∈ pieces, piece ≠ [])
      (hlast : half.writer.isLast = false) (hvalues : half.writer.values = [])
      (hsent : sent ++ half.writer.left = dataText chunked pieces)
      (hbody : body =
        (half.writer.decoder.bodyOfContent half.source.content).prepend pieces.flatten)
  | ending {pieces : List Bytes} {trailers : Option HeaderMap}
      {fields : List (HeaderName × HeaderValue)} (hpieces : ∀ piece ∈ pieces, piece ≠ [])
      (hlast : half.writer.isLast = true)
      (hsent : sent ++ half.writer.left = dataText chunked pieces ++ endText chunked fields)
      (hfields : forwardedTrailers nominations trailers = some fields)
      (hvalues : WrittenValues fields half.writer.values)
      (hbody : body = ⟨pieces.flatten, .ok (trailers, half.source.content)⟩)

/-! ## Steps -/

omit [HttpCrate] in
theorem content_of_reads {loop : FillLoop UInt8} (h : loop.Reads source source') :
    source'.content = source.content := Source.content_pass_more h

theorem content_of_decoder_reads {decoder : BodyDecoder} (h : decoder.Reads source source') :
    source'.content = source.content := by
  obtain ⟨loop, -, hreads⟩ := h
  exact content_of_reads hreads

/-- A turn and a frame take their part of the body also after some of the reads for them. -/
theorem reading_law {decoder : BodyDecoder} (h : decoder.Reading source) :
    decoder.TurnLaw source (decoder.turn source) ∧
      decoder.TurnLaw source (BodyDecoder.frameTurn (decoder.nextFrame source)) := by
  obtain ⟨begun, hready, hreads⟩ := h
  have hsame : decoder.turn source = decoder.turn begun ∧ begun.content = source.content := by
    induction hreads with
    | refl => exact ⟨rfl, rfl⟩
    | tail _ hread ih =>
      rw [← BodyDecoder.turn_reads hread, content_of_decoder_reads hread]
      exact ih
  have hbody : decoder.bodyOfContent source.content = decoder.bodyOfContent begun.content := by
    rw [hsame.2]
  rw [BodyDecoder.nextFrame_of_turn hsame.1, hsame.1]
  exact ⟨(BodyDecoder.turn_law hready).of_eq hbody, (BodyDecoder.nextFrame_law hready).of_eq hbody⟩

/-- What the writer forwards is fixed when it is built, and it is not completed by what it reads. -/
theorem step_constant (h : Step half half') : half'.writer.chunked = half.writer.chunked ∧
    half'.writer.trailerNominations = half.writer.trailerNominations ∧
      (half.writer.waitingOnUpstream = false → half'.writer.complete = half.writer.complete) := by
  cases h with
  | read => exact ⟨rfl, rfl, fun _ => rfl⟩
  | turn => exact ⟨rfl, rfl, fun _ => rfl⟩
  | downstream _ hstep =>
    unfold RequestWriter.stepDownstream at hstep
    split at hstep
    · split at hstep
      · cases (Prod.mk.inj hstep).1
      · obtain ⟨hqueue, -⟩ := Prod.mk.inj hstep
        unfold RequestWriter.queueFrame at hqueue
        split at hqueue
        · split at hqueue <;> obtain rfl := Except.ok.inj hqueue <;> exact ⟨rfl, rfl, fun _ => rfl⟩
        · split at hqueue
          · cases hqueue
          · obtain rfl := Except.ok.inj hqueue
            exact ⟨rfl, rfl, fun _ => rfl⟩
        · split at hqueue <;> obtain rfl := Except.ok.inj hqueue <;> exact ⟨rfl, rfl, fun _ => rfl⟩
    all_goals
      obtain ⟨hqueue, -⟩ := Prod.mk.inj hstep
      obtain rfl := Except.ok.inj hqueue
      exact ⟨rfl, rfl, fun _ => rfl⟩
  | upstream hwaiting _ hstep =>
    have hnot {p : Prop} (hnot : _ = false) : p :=
      absurd (hnot.symm.trans hwaiting) Bool.false_ne_true
    unfold RequestWriter.stepUpstream at hstep
    split at hstep
    · split at hstep
      · cases hstep
      · simp only at hstep
        split at hstep <;> obtain rfl := Except.ok.inj hstep <;> exact ⟨rfl, rfl, hnot⟩
    · obtain rfl := Except.ok.inj hstep
      exact ⟨rfl, rfl, hnot⟩

theorem left_of_pending {pending : PendingWrite} (h : writer.pending = some pending) :
    writer.left = pending.bytes.asBytes.drop pending.offset ++ pending.next.text ∧
      writer.isLast = pending.next.isLast ∧
        writer.values = pending.bytes.values ++ pending.next.values := by
  unfold RequestWriter.left RequestWriter.isLast RequestWriter.values
  rw [h]
  exact ⟨rfl, rfl, rfl⟩

theorem left_of_none (h : writer.pending = none) : writer.left = writer.state.text ∧
    writer.isLast = writer.state.isLast ∧ writer.values = writer.state.values := by
  unfold RequestWriter.left RequestWriter.isLast RequestWriter.values
  rw [h]
  exact ⟨rfl, rfl, rfl⟩

/-- The pieces of what is left are queued one after another. -/
theorem stepDownstream_left (hwaiting : writer.waitingOnUpstream = false)
    (hstate : writer.state ≠ .needFrame)
    (hstep : writer.stepDownstream source = (.ok writer', source')) :
    source' = source ∧ writer'.decoder = writer.decoder ∧ writer'.left = writer.left ∧
      writer'.isLast = writer.isLast ∧ writer'.values = writer.values := by
  obtain ⟨hleft, hlast, hvalues⟩ := left_of_none (pending_of_waiting hwaiting)
  rw [hleft, hlast, hvalues]
  unfold RequestWriter.stepDownstream at hstep
  split at hstep
  · rename_i hneed
    exact absurd hneed hstate
  all_goals
    rename_i heq
    obtain ⟨hqueue, rfl⟩ := Prod.mk.inj hstep
    obtain rfl := Except.ok.inj hqueue
    rw [heq]
  · exact ⟨rfl, rfl, rfl, rfl, rfl⟩
  · exact ⟨rfl, rfl, List.append_nil _, rfl, rfl⟩
  · rename_i name value fields
    refine ⟨rfl, rfl, ?_, rfl, rfl⟩
    show name.asStr ++ (ascii ": " ++ (value.asBytes ++ (crlf ++ trailerText fields))) = trailerText _
    simp [trailerText, fieldLine]
  · exact ⟨rfl, rfl, List.append_nil _, rfl, rfl⟩
  · exact ⟨rfl, rfl, rfl, rfl, rfl⟩
  · exact ⟨rfl, rfl, rfl, rfl, rfl⟩
  · exact ⟨rfl, rfl, rfl, rfl, rfl⟩
  · rw [hleft, hlast, hvalues, heq]
    exact ⟨rfl, rfl, rfl, rfl, rfl⟩

/-- What the origin takes is taken from what is left. -/
theorem stepUpstream_left {pending : PendingWrite} {written : ℕ} (hpending : writer.pending = some pending)
    (hstep : writer.stepUpstream written = .ok writer') :
    writer'.decoder = writer.decoder ∧ writer'.isLast = writer.isLast ∧
      writer'.complete = writer.complete ∧
        (pending.bytes.asBytes.drop pending.offset).take written ++ writer'.left = writer.left ∧
          ∃ taken, writer.values = taken ++ writer'.values ∧ ∀ value ∈ taken, value.asBytes ≠ [] := by
  obtain ⟨hleft, hlast, hvalues⟩ := left_of_pending hpending
  unfold RequestWriter.stepUpstream at hstep
  rw [hpending] at hstep
  simp only at hstep
  split at hstep
  · cases hstep
  · rename_i hpos
    split at hstep <;> obtain rfl := Except.ok.inj hstep
    · rename_i hend
      refine ⟨rfl, hlast.symm, rfl, ?_, pending.bytes.values, hvalues, fun value hvalue hnil => ?_⟩
      · rw [hleft]
        show _ ++ pending.next.text = _
        rw [List.take_of_length_le (by rw [List.length_drop]; omega)]
      · -- a piece is taken in full only when something of it is taken
        have hlength : pending.bytes.asBytes.length = 0 := by
          cases hbytes : pending.bytes with
          | headerValue value' =>
            rw [hbytes] at hvalue
            obtain rfl := List.mem_singleton.mp hvalue
            exact congrArg List.length hnil
          | bytes | headerName =>
            rw [hbytes] at hvalue
            exact absurd hvalue List.not_mem_nil
        omega
    · refine ⟨rfl, hlast.symm, rfl, ?_, [], hvalues, fun _ h => absurd h List.not_mem_nil⟩
      rw [hleft]
      show _ ++ (pending.bytes.asBytes.drop (pending.offset + written) ++ pending.next.text) = _
      rw [← List.append_assoc, ← List.drop_drop, List.take_append_drop]

/-! ## Progress -/

variable {chunked : Bool} {nominations : List HeaderName} {body : Body}

theorem prepend_prepend (data data' : Bytes) (body : Body) :
    (body.prepend data').prepend data = body.prepend (data ++ data') := by
  simp [Body.prepend]

theorem prepend_nil_data (data : Bytes) (ending : Except IngressError (Option HeaderMap × Bytes)) :
    Body.prepend data ⟨[], ending⟩ = ⟨data, ending⟩ := by
  simp [Body.prepend]

/-- Only a chunked body has trailers. -/
theorem trailers_chunked {framing : BodyFraming} {content data rest : Bytes} {trailers : HeaderMap}
    (h : (BodyDecoder.new framing).bodyOfContent content = ⟨data, .ok (some trailers, rest)⟩) :
    framing = .chunked := by
  cases framing with
  | chunked => rfl
  | none =>
    rw [BodyDecoder.bodyOfContent_complete rfl] at h
    cases h
  | contentLength length =>
    rw [BodyDecoder.bodyOfContent_fixed rfl] at h
    split at h <;> cases h

/-- The next frame of a body, or its end, is queued. -/
theorem progress_frame {frame : Option BodyFrame} {decoder : BodyDecoder} {pieces : List Bytes}
    (hpieces : ∀ piece ∈ pieces, piece ≠ []) (hchunked : writer.chunked = chunked)
    (hnominations : writer.trailerNominations = nominations)
    (hwaiting : writer.waitingOnUpstream = false) (hstate : writer.state = .needFrame)
    (hsent : sent ++ writer.left = dataText chunked pieces)
    (hbody : body = (writer.decoder.bodyOfContent source.content).prepend pieces.flatten)
    (hlaw : writer.decoder.TurnLaw source (BodyDecoder.frameTurn (.ok frame, decoder, source')))
    (htrailers : ∀ data trailers rest, body = ⟨data, .ok (some trailers, rest)⟩ → chunked = true)
    (hqueue : RequestWriter.queueFrame { writer with decoder } frame = .ok writer') :
    Progress chunked nominations body ⟨writer', source'⟩ sent := by
  have hleft : writer.left = [] := by
    rw [(left_of_none (pending_of_waiting hwaiting)).1, hstate]
    rfl
  rw [hleft, List.append_nil] at hsent
  subst hchunked hnominations
  unfold RequestWriter.queueFrame at hqueue
  rcases frame with _ | data | trailers
  · -- the end of the body, without trailers
    obtain ⟨-, -, hrest⟩ := hlaw
    rw [hrest, prepend_nil_data] at hbody
    have hfields : forwardedTrailers writer.trailerNominations none = some [] := rfl
    simp only at hqueue
    split at hqueue
    · rename_i hc
      obtain rfl := Except.ok.inj hqueue
      refine .ending hpieces rfl ?_ hfields ⟨[], rfl, fun _ h => absurd h List.not_mem_nil⟩ hbody
      rw [hsent, hc, endText_fields]
      exact congrArg _ (List.append_nil _)
    · rename_i hc
      obtain rfl := Except.ok.inj hqueue
      have hpending : writer.pending = none := pending_of_waiting hwaiting
      obtain ⟨hleft', hlast', hvalues'⟩ := @left_of_none _
        { writer with decoder, state := .flush } hpending
      refine .ending hpieces hlast' ?_ hfields
        ⟨[], hvalues'.symm, fun _ h => absurd h List.not_mem_nil⟩ hbody
      rw [hsent, hleft', endText, if_neg hc]
      rfl
  · obtain ⟨hne, -, hrest⟩ := hlaw
    rw [hrest, prepend_prepend] at hbody
    have hpieces' : ∀ piece ∈ pieces ++ [data], piece ≠ [] := fun piece hpiece =>
      (List.mem_append.mp hpiece).elim (hpieces piece) fun h => List.mem_singleton.mp h ▸ hne
    have hflat : (pieces ++ [data]).flatten = pieces.flatten ++ data := by simp
    simp only at hqueue
    split at hqueue <;> obtain rfl := Except.ok.inj hqueue
    · rename_i hc
      refine .reading hpieces' rfl rfl ?_ (by rw [hflat]; exact hbody)
      rw [hsent, dataText_concat, if_pos hc]
      rfl
    · rename_i hc
      refine .reading hpieces' rfl rfl ?_ (by rw [hflat]; exact hbody)
      rw [hsent, dataText_concat, if_neg hc]
      exact congrArg _ (List.append_nil _)
  · obtain ⟨-, -, hrest⟩ := hlaw
    rw [hrest, prepend_nil_data] at hbody
    have hc := htrailers _ _ _ hbody
    simp only at hqueue
    split at hqueue
    · cases hqueue
    · rename_i sanitized hsanitized
      obtain rfl := Except.ok.inj hqueue
      have hfields : forwardedTrailers writer.trailerNominations (some trailers) =
          some (ownedFields (removeAll sanitized writer.trailerNominations)) := by
        rw [forwardedTrailers, hsanitized]
        rfl
      refine .ending hpieces rfl ?_ hfields ⟨[], rfl, fun _ h => absurd h List.not_mem_nil⟩ hbody
      rw [hsent, hc, endText_fields]
      rfl

/-- **Every step keeps what was taken and what is left an encoding.** -/
theorem progress_downstream (hreading : half.writer.decoder.Reading half.source)
    (hchunked : half.writer.chunked = chunked)
    (hnominations : half.writer.trailerNominations = nominations)
    (htrailers : ∀ data trailers rest, body = ⟨data, .ok (some trailers, rest)⟩ → chunked = true)
    (hwaiting : half.writer.waitingOnUpstream = false) (hstep : Step half half')
    (h : Progress chunked nominations body half sent) :
    Progress chunked nominations body half' sent := by
  cases hstep with
  | read _ hstate hread =>
    have hcontent := content_of_decoder_reads hread
    cases h with
    | reading hpieces hlast hvalues hsent hbody =>
      refine .reading hpieces hlast hvalues hsent ?_
      rw [hbody, ← hcontent]
    | ending hpieces hlast hsent hfields hvalues hbody =>
      refine .ending hpieces hlast hsent hfields hvalues ?_
      rw [hbody, ← hcontent]
  | @turn writer source source' decoder _ hstate hturn =>
    have hlast : writer.isLast = false := by
      rw [(left_of_none (pending_of_waiting hwaiting)).2.1, hstate]
      rfl
    cases h with
    | ending _ hlast' => exact absurd (hlast.symm.trans hlast') Bool.false_ne_true
    | reading hpieces _ hvalues hsent hbody =>
      have hlaw := (reading_law hreading).1
      rw [hturn] at hlaw
      refine .reading hpieces hlast hvalues hsent ?_
      rw [hbody, hlaw.1]
  | @downstream writer writer' source source' _ hstep =>
    by_cases hstate : writer.state = .needFrame
    · have hlast : writer.isLast = false := by
        rw [(left_of_none (pending_of_waiting hwaiting)).2.1, hstate]
        rfl
      cases h with
      | ending _ hlast' => exact absurd (hlast.symm.trans hlast') Bool.false_ne_true
      | reading hpieces _ _ hsent hbody =>
        have hlaw := (reading_law hreading).2
        unfold RequestWriter.stepDownstream at hstep
        rw [hstate] at hstep
        simp only at hstep
        split at hstep
        · cases (Prod.mk.inj hstep).1
        · rename_i frame decoder source'' hframe
          obtain ⟨hqueue, rfl⟩ := Prod.mk.inj hstep
          rw [hframe] at hlaw
          exact progress_frame hpieces hchunked hnominations hwaiting hstate hsent hbody hlaw htrailers
            hqueue
    · obtain ⟨rfl, hdecoder, hleft, hlast, hsame⟩ := stepDownstream_left hwaiting hstate hstep
      cases h with
      | reading hpieces hlast' hvalues hsent hbody =>
        refine .reading hpieces (hlast.trans hlast') (hsame.trans hvalues) (by rw [hleft]; exact hsent) ?_
        rw [hbody, hdecoder]
      | ending hpieces hlast' hsent hfields hvalues hbody =>
        exact .ending hpieces (hlast.trans hlast') (by rw [hleft]; exact hsent) hfields
          (by rw [hsame]; exact hvalues) hbody
  | upstream hwaiting' => exact absurd (hwaiting.symm.trans hwaiting') Bool.false_ne_true

theorem progress_upstream {pending : PendingWrite} {written : ℕ}
    (hpending : writer.pending = some pending) (hstep : writer.stepUpstream written = .ok writer')
    (h : Progress chunked nominations body ⟨writer, source⟩ sent) :
    Progress chunked nominations body ⟨writer', source⟩
      (sent ++ (pending.bytes.asBytes.drop pending.offset).take written) := by
  obtain ⟨hdecoder, hlast, -, hleft, taken, hsame, htaken⟩ := stepUpstream_left hpending hstep
  have htext (text : Bytes) (hsent : sent ++ writer.left = text) :
      sent ++ (pending.bytes.asBytes.drop pending.offset).take written ++ writer'.left = text := by
    rw [List.append_assoc, hleft, hsent]
  cases h with
  | reading hpieces hlast' hvalues hsent hbody =>
    have hnone := hsame.symm.trans hvalues
    refine .reading hpieces (hlast.trans hlast') (List.append_eq_nil_iff.mp hnone).2 (htext _ hsent) ?_
    rw [hbody, hdecoder]
  | ending hpieces hlast' hsent hfields hvalues hbody =>
    obtain ⟨before, hfieldValues, hbefore⟩ := hvalues
    refine .ending hpieces (hlast.trans hlast') (htext _ hsent) hfields ⟨before ++ taken, ?_, ?_⟩ hbody
    · rw [hfieldValues, List.append_assoc]
      exact congrArg _ hsame
    · exact fun value hvalue => (List.mem_append.mp hvalue).elim (hbefore value) (htaken value)

/-- **Every run keeps what was taken and what is left an encoding of the body.** -/
theorem progress_run {framing : BodyFraming} {nominations : List HeaderName} (hmodest : Modest source)
    (hrun : Sends ⟨.new framing nominations, source⟩ half sent) :
    Progress (framing == .chunked) nominations ((BodyDecoder.new framing).bodyOfContent source.content)
        half sent ∧
      half.writer.chunked = (framing == .chunked) ∧ half.writer.trailerNominations = nominations ∧
        (half.writer.complete = true → half.writer.pending = none ∧ half.writer.state = .flush) := by
  have htrailers : ∀ data trailers rest, (BodyDecoder.new framing).bodyOfContent source.content =
      ⟨data, .ok (some trailers, rest)⟩ → (framing == .chunked) = true := fun _ _ _ h => by
    rw [trailers_chunked h]
    rfl
  induction hrun with
  | start =>
    have hnone : ∀ piece ∈ ([] : List Bytes), piece ≠ [] := fun _ h => absurd h List.not_mem_nil
    refine ⟨.reading hnone rfl rfl ?_ rfl, rfl, rfl, fun h => nomatch h⟩
    cases framing <;> rfl
  | @downstream half half' sent hrun hwaiting hstep ih =>
    obtain ⟨hprogress, hchunked, hnominations, hcomplete⟩ := ih
    obtain ⟨hchunked', hnominations', hsame⟩ := step_constant hstep
    have hreading := (bounded_run hmodest hrun.run).reading
    refine ⟨progress_downstream hreading hchunked hnominations htrailers hwaiting hstep hprogress,
      hchunked'.trans hchunked, hnominations'.trans hnominations, fun hdone => ?_⟩
    obtain ⟨-, hflush⟩ := hcomplete ((hsame hwaiting).symm.trans hdone)
    simp [RequestWriter.waitingOnUpstream, hflush] at hwaiting
  | @upstream writer writer' source' pending written sent hrun hpending hwritten hstep ih =>
    obtain ⟨hprogress, hchunked, hnominations, hcomplete⟩ := ih
    obtain ⟨-, -, hsame, -⟩ := stepUpstream_left hpending hstep
    have hwaiting : writer.waitingOnUpstream = true := by
      simp [RequestWriter.waitingOnUpstream, hpending]
    obtain ⟨hchunked', hnominations', -⟩ := step_constant
      (@Step.upstream _ writer writer' source' written hwaiting (fun p hp => by
        rw [hpending] at hp
        exact Option.some.inj hp ▸ hwritten) hstep)
    refine ⟨progress_upstream hpending hstep hprogress, hchunked'.trans hchunked,
      hnominations'.trans hnominations, fun hdone => ?_⟩
    obtain ⟨hnone, -⟩ := hcomplete (hsame.symm.trans hdone)
    rw [show writer.pending = none from hnone] at hpending
    cases hpending
  | flush hrun hpending hstate ih =>
    obtain ⟨hprogress, hchunked, hnominations, -⟩ := ih
    refine ⟨?_, hchunked, hnominations, fun _ => ⟨hpending, hstate⟩⟩
    cases hprogress with
    | reading hpieces hlast hvalues hsent hbody =>
      exact .reading hpieces hlast hvalues hsent hbody
    | ending hpieces hlast hsent hfields hvalues hbody =>
      exact .ending hpieces hlast hsent hfields hvalues hbody

end RequestHalf

/-! ## The encoding of a body -/

/-- The octets are the data and the fields, under the framing that the outbound head announces. -/
def Carries (framing : BodyFraming) (octets data : Bytes) (fields : List ChunkedCoding.Field) : Prop :=
  match framing with
  | .none => octets = [] ∧ data = [] ∧ fields = []
  | .contentLength length => octets = data ∧ data.length = length ∧ fields = []
  | .chunked => ∀ rest, ChunkedCoding.decode (octets ++ rest) = some (data, fields, rest)

/-- The values that go on for a name, of those of the trailers. -/
def forwardedValues (nominations : List HeaderName) (trailers : Option HeaderMap) (name : HeaderName) :
    List HeaderValue :=
  match trailers with
  | none => []
  | some trailers => if name ∈ fixedHopHeaders ∨ name ∈ nominations then [] else trailers.getAll name

/-- Trailers that a body may have nominate nothing. -/
theorem nominations_of_valid {trailers : HeaderMap} (h : validateTrailers trailers = .ok ()) :
    trailers.getAll .connection = [] ∧ connectionNominations trailers = some [] := by
  have hnone : trailers.getAll .connection = [] := by
    refine List.eq_nil_iff_forall_not_mem.mpr fun value hvalue => ?_
    unfold validateTrailers at h
    split at h
    · cases h
    · rename_i hforbidden
      refine hforbidden (List.any_eq_true.mpr ⟨_, HeaderMap.mem_fields.mpr hvalue, ?_⟩)
      rw [HeaderName.connection, HeaderName.asStr_ofStatic]
      decide
  refine ⟨hnone, ?_⟩
  rw [connectionNominations, hnone]
  rfl

/-- The trailers of a body have been validated. -/
theorem validateTrailers_of_body {decoder : BodyDecoder} {content rest : Bytes} {trailers : HeaderMap}
    (hbody : (decoder.bodyOfContent content).ending = .ok (some trailers, rest)) :
    validateTrailers trailers = .ok () := by
  fun_induction BodyDecoder.bodyOfContent decoder content
  case case6 ih => exact ih (by simpa using hbody)
  case case8 ih | case11 ih | case16 ih => exact ih hbody
  case case14 hvalid _ =>
    have hsome := (Prod.mk.inj (Except.ok.inj hbody)).1
    split at hsome
    · cases hsome
    · exact Option.some.inj hsome ▸ hvalid
  all_goals cases hbody

theorem valuesOf_ownedFields (headers : HeaderMap) (name : HeaderName) :
    valuesOf name (ownedFields headers) = headers.getAll name := by
  have hfill : ownedFields headers = fillNames none (HttpCrate.intoIter headers) :=
    ownedFieldsFrom_eq fun _ => rfl
  rw [hfill, HttpCrate.valuesOf_intoIter]

/-- The trailers that go on are those that are not hop-by-hop. -/
theorem forwardedTrailers_eq {nominations : List HeaderName} {trailers : Option HeaderMap}
    (hvalid : ∀ t, trailers = some t → validateTrailers t = .ok ()) :
    ∃ fields, forwardedTrailers nominations trailers = some fields ∧
      ∀ name, valuesOf name fields = forwardedValues nominations trailers name := by
  cases trailers with
  | none => exact ⟨[], rfl, fun _ => rfl⟩
  | some trailers =>
    obtain ⟨hnone, hnominated⟩ := nominations_of_valid (hvalid trailers rfl)
    obtain ⟨sanitized, hsanitized⟩ : ∃ sanitized, sanitizeHopByHop trailers = some sanitized := by
      rw [sanitizeHopByHop, hnominated]
      exact ⟨_, rfl⟩
    refine ⟨_, by rw [forwardedTrailers, hsanitized]; rfl, fun name => ?_⟩
    rw [valuesOf_ownedFields, getAll_removeAll, getAll_sanitizeHopByHop hnominated hsanitized,
      forwardedValues]
    by_cases hname : name ∈ nominations
    · simp [hname]
    · by_cases hconnection : name = .connection
      · simp [hconnection, hnone]
      · simp [hname, hconnection]

/-- The trailers that go on can be written: one line for each, and no blanks around the values. -/
theorem plain_forwarded {nominations : List HeaderName} {trailers : Option HeaderMap}
    {fields : List (HeaderName × HeaderValue)} (htrimmed : ∀ t, trailers = some t → Trimmed t)
    (hfields : forwardedTrailers nominations trailers = some fields) :
    ∀ field ∈ fields.map wireField, ChunkedCoding.Plain field := by
  intro field hfield
  obtain ⟨⟨name, value⟩, hmem, rfl⟩ := List.mem_map.mp hfield
  refine ⟨name.validToken_asStr, cr_not_mem_value value, ?_⟩
  cases trailers with
  | none =>
    obtain rfl := Option.some.inj hfields
    cases hmem
  | some trailers =>
    obtain ⟨sanitized, hsanitized, rfl⟩ := Option.map_eq_some_iff.mp hfields
    have htrimmed' := ((htrimmed trailers rfl).sanitize hsanitized).removeAll nominations
    exact htrimmed' name value
      (HeaderMap.mem_fields.mp ((ownedFields_perm _).mem_iff.mp hmem))

/-- A body of a fixed length has so many octets, and a body without framing has none. -/
theorem fixed_of_new {framing : BodyFraming} {content data rest : Bytes}
    {trailers : Option HeaderMap} (hframing : framing ≠ .chunked)
    (h : (BodyDecoder.new framing).bodyOfContent content = ⟨data, .ok (trailers, rest)⟩) :
    trailers = none ∧ (framing = .none → data = []) ∧
      ∀ length, framing = .contentLength length → data.length = length := by
  cases framing with
  | chunked => exact absurd rfl hframing
  | none =>
    rw [BodyDecoder.bodyOfContent_complete rfl] at h
    cases h
    exact ⟨rfl, fun _ => rfl, fun _ h => nomatch h⟩
  | contentLength length =>
    rw [BodyDecoder.bodyOfContent_fixed rfl] at h
    split at h
    · cases h
    · cases h
      refine ⟨rfl, fun h => (nomatch h), fun length' h => ?_⟩
      obtain rfl := BodyFraming.contentLength.inj h
      rw [List.length_take]
      omega

/-- **The octets of a whole encoding are the data and the trailers that go on.** -/
theorem carries_encoding {framing : BodyFraming} {nominations : List HeaderName} {content rest : Bytes}
    {pieces : List Bytes} {trailers : Option HeaderMap} {fields : List (HeaderName × HeaderValue)}
    (hpieces : ∀ piece ∈ pieces, piece ≠ [])
    (hfields : forwardedTrailers nominations trailers = some fields)
    (hbody : (BodyDecoder.new framing).bodyOfContent content =
      ⟨pieces.flatten, .ok (trailers, rest)⟩) :
    Carries framing (dataText (framing == .chunked) pieces ++ endText (framing == .chunked) fields)
      pieces.flatten (fields.map wireField) := by
  by_cases hframing : framing = .chunked
  · subst hframing
    intro rest'
    refine ChunkedCoding.decode_encode hpieces (plain_forwarded (fun t ht => ?_) hfields) rest'
    subst ht
    exact trimmed_trailers trimmed_empty (congrArg Body.ending hbody)
  · obtain ⟨rfl, hnone, hlength⟩ := fixed_of_new hframing hbody
    obtain rfl := Option.some.inj hfields
    have hchunked : (framing == .chunked) = false := by simpa using hframing
    rw [hchunked]
    cases framing with
    | chunked => exact absurd rfl hframing
    | none => exact ⟨(List.append_nil _).trans (hnone rfl), hnone rfl, rfl⟩
    | contentLength length => exact ⟨List.append_nil _, hlength length rfl, rfl⟩

section

variable {framing : BodyFraming} {nominations : List HeaderName} {source : Source UInt8}
  {half : RequestHalf} {sent : Bytes}

/-- What the origin took is the start of an encoding: of the data read so far, or of the whole body. -/
theorem sent_starts (hmodest : Modest source)
    (hrun : RequestHalf.Sends ⟨.new framing nominations, source⟩ half sent) :
    let body := (BodyDecoder.new framing).bodyOfContent source.content
    let chunked := framing == .chunked
    ∃ pieces, (∀ piece ∈ pieces, piece ≠ []) ∧ pieces.flatten <+: body.data ∧
      (sent <+: dataText chunked pieces ∨
        ∃ trailers rest fields, body = ⟨pieces.flatten, .ok (trailers, rest)⟩ ∧
          forwardedTrailers nominations trailers = some fields ∧
            sent <+: dataText chunked pieces ++ endText chunked fields) := by
  intro body chunked
  obtain ⟨hprogress, -⟩ := RequestHalf.progress_run hmodest hrun
  cases hprogress with
  | @reading pieces hpieces _ _ hsent hbody =>
    exact ⟨pieces, hpieces, ⟨_, (congrArg Body.data hbody).symm⟩, .inl ⟨_, hsent⟩⟩
  | @ending pieces trailers fields hpieces _ hsent hfields _ hbody =>
    refine ⟨pieces, hpieces, ?_, .inr ⟨trailers, _, fields, hbody, hfields, _, hsent⟩⟩
    rw [show body.data = pieces.flatten from congrArg Body.data hbody]

/-- What the origin took when the writer is complete carries the whole body. -/
theorem carries_of_complete (hmodest : Modest source)
    (hrun : RequestHalf.Sends ⟨.new framing nominations, source⟩ half sent)
    (hdone : half.writer.complete = true) :
    let body := (BodyDecoder.new framing).bodyOfContent source.content
    ∃ trailers fields, body.ending = .ok (trailers, half.source.content) ∧
      (∀ name, valuesOf name fields = forwardedValues nominations trailers name) ∧
        Carries framing sent body.data (fields.map wireField) := by
  intro body
  obtain ⟨hprogress, -, -, hcomplete⟩ := RequestHalf.progress_run hmodest hrun
  obtain ⟨hpending, hstate⟩ := hcomplete hdone
  obtain ⟨hleft, hlast', -⟩ := RequestHalf.left_of_none hpending
  rw [hstate] at hleft hlast'
  cases hprogress with
  | reading _ hlast => exact absurd (hlast.symm.trans hlast') Bool.false_ne_true
  | @ending pieces trailers fields hpieces _ hsent hfields _ hbody =>
    obtain ⟨fields', hfields', hnames⟩ := @forwardedTrailers_eq _ nominations trailers fun t ht =>
      validateTrailers_of_body (congrArg Body.ending (ht ▸ hbody))
    obtain rfl := Option.some.inj (hfields.symm.trans hfields')
    rw [hleft, RequestState.text, List.append_nil] at hsent
    refine ⟨trailers, fields, congrArg Body.ending hbody, hnames, ?_⟩
    rw [hsent, show body.data = pieces.flatten from congrArg Body.data hbody]
    exact carries_encoding hpieces hfields hbody

/-- **The origin gets the body of the request and nothing else.** At every point of every run, what it
took is the start of an encoding of the data read so far or of the whole body. The writer is complete only
when a whole encoding was taken, which under the announced framing is the data and the trailers that go
on; the client's connection then stands right after the body. -/
theorem request_encoding (hmodest : Modest source)
    (hrun : RequestHalf.Sends ⟨.new framing nominations, source⟩ half sent) :
    let body := (BodyDecoder.new framing).bodyOfContent source.content
    let chunked := framing == .chunked
    (∃ pieces, (∀ piece ∈ pieces, piece ≠ []) ∧ pieces.flatten <+: body.data ∧
      (sent <+: dataText chunked pieces ∨
        ∃ trailers rest fields, body = ⟨pieces.flatten, .ok (trailers, rest)⟩ ∧
          forwardedTrailers nominations trailers = some fields ∧
            sent <+: dataText chunked pieces ++ endText chunked fields)) ∧
    (half.writer.complete = true → ∃ trailers fields,
      body.ending = .ok (trailers, half.source.content) ∧
        (∀ name, valuesOf name fields = forwardedValues nominations trailers name) ∧
          Carries framing sent body.data (fields.map wireField)) :=
  ⟨sent_starts hmodest hrun, carries_of_complete hmodest hrun⟩

end

/-! ## A body of one chunk, with a trailer -/

def chunkedBody : Bytes :=
  ascii "3" ++ crlf ++ ascii "abc" ++ crlf ++ ascii "0" ++ crlf ++ ascii "A: b" ++ crlf ++ crlf

omit [HttpCrate] in
open BodyDecoder in
/-- The data is one frame, and the trailers are another. -/
theorem frames_chunked : let _ := HttpCrate.reference
    ∃ (trailers kept : HeaderMap) (name : HeaderName) (value : HeaderValue)
      (decoder decoder' : BodyDecoder),
      (BodyDecoder.new .chunked).nextFrame ⟨chunkedBody, .empty⟩ =
          (.ok (some (.data (ascii "abc"))), decoder, ⟨chunkedBody.drop 6, .empty⟩) ∧
        decoder.nextFrame ⟨chunkedBody.drop 6, .empty⟩ =
          (.ok (some (.trailers trailers)), decoder', ⟨[], .empty⟩) ∧
        sanitizeHopByHop trailers = some kept ∧ ownedFields (removeAll kept []) = [(name, value)] ∧
          name.asStr = ascii "a" ∧ value.asBytes = ascii "b" := by
  let _ := HttpCrate.reference
  have heval : (appendFieldLine .empty (ascii "A: b")).toOption.any (fun trailers =>
      !trailers.isEmpty && (validateTrailers trailers).toOption.isSome &&
      (sanitizeHopByHop trailers).any fun kept =>
        (ownedFields (removeAll kept [])).map (fun field => (field.1.asStr, field.2.asBytes)) ==
          [(ascii "a", ascii "b")]) = true := by
    decide +kernel
  obtain ⟨trailers, htrailers, hplain⟩ := (Option.any_eq_true _ _).mp heval
  simp only [Bool.and_eq_true, Bool.not_eq_true'] at hplain
  obtain ⟨⟨hsome, hvalid⟩, hkept⟩ := hplain
  obtain ⟨kept, hkept, hfields⟩ := (Option.any_eq_true _ _).mp hkept
  obtain ⟨⟨name, value⟩, hfield, hwire⟩ := List.map_eq_singleton_iff.mp (beq_iff_eq.mp hfields)
  obtain ⟨hname, hvalue⟩ := Prod.mk.inj hwire
  have hparse : appendFieldLine .empty (ascii "A: b") = .ok trailers := toOption_eq_some htrailers
  obtain ⟨_, hvalid⟩ := Option.isSome_iff_exists.mp hvalid
  have hsize := @turn_size _ (BodyDecoder.new .chunked) ⟨chunkedBody, .empty⟩ 3 3 rfl rfl rfl
  have hend := @turn_dataEnd _ ⟨.chunkDataEnd, .empty, 0⟩ ⟨chunkedBody.drop 6, .empty⟩ rfl rfl
  have hzero := @turn_size _ ⟨.chunkSize, .empty, 0⟩ ⟨chunkedBody.drop 8, .empty⟩ 3 0 rfl rfl rfl
  have hline := @turn_trailer _ ⟨.trailers, .empty, 0⟩ ⟨chunkedBody.drop 11, .empty⟩ 6 trailers rfl rfl rfl
    hparse
  obtain ⟨decoder', hlast⟩ := @turn_trailers _ ⟨.trailers, trailers, 6⟩ ⟨chunkedBody.drop 17, .empty⟩ 2 rfl
    rfl rfl (toOption_eq_some hvalid) hsome
  refine ⟨trailers, kept, name, value, ⟨.chunkDataEnd, .empty, 0⟩, decoder', ?_, ?_, hkept, hfield, hname,
    hvalue⟩
  · rw [nextFrame_silent hsize]
    exact nextFrame_turn rfl
  · rw [nextFrame_silent hend]
    exact (nextFrame_silent hzero).trans ((nextFrame_silent hline).trans (nextFrame_turn hlast))

/-- The octets that go on for the body. -/
def chunkedText : Bytes :=
  ascii "3" ++ crlf ++ ascii "abc" ++ crlf ++ ascii "0" ++ crlf ++ ascii "a: b" ++ crlf ++ crlf

omit [HttpCrate] in
/-- The origin takes one octet at first. -/
theorem sends_chunked : let _ := HttpCrate.reference
    ∃ half, half.writer.complete = true ∧
      RequestHalf.Sends ⟨.new .chunked [], ⟨chunkedBody, .empty⟩⟩ half chunkedText := by
  let _ := HttpCrate.reference
  obtain ⟨trailers, kept, name, value, decoder, decoder', hdata, htrailers, hkept, hfields, hname, hvalue⟩ :=
    frames_chunked
  let writer (decoder : BodyDecoder) (next : RequestState) (pending : Option PendingWrite) :
      RequestWriter := ⟨decoder, true, next, pending, [], false⟩
  let piece (offset : ℕ) : PendingWrite := ⟨.bytes (chunkPrefix 3), offset, .chunkData (ascii "abc")⟩
  let last : Source UInt8 := ⟨chunkedBody.drop 6, .empty⟩
  have hread : (RequestWriter.new .chunked []).stepDownstream ⟨chunkedBody, .empty⟩ =
      (.ok (writer decoder .needFrame (some (piece 0))), last) := by
    simp only [RequestWriter.stepDownstream, RequestWriter.new, hdata]
    rfl
  have hclose : (writer decoder .needFrame none).stepDownstream last =
      (.ok ((writer decoder' .needFrame none).queue (.bytes (48 :: crlf)) (.trailerFields [(name, value)])),
        ⟨[], .empty⟩) := by
    simp only [RequestWriter.stepDownstream, writer, last, htrailers, RequestWriter.queueFrame, hkept,
      hfields]
  have hqueued : RequestHalf.Sends _ _ _ := .downstream .start rfl (.downstream rfl hread)
  have hone : RequestHalf.Sends _ ⟨writer decoder .needFrame (some (piece 1)), last⟩ (ascii "3") :=
    @RequestHalf.Sends.upstream _ _ _ _ _ (piece 0) 1 [] hqueued rfl (show 0 + 1 ≤ 3 by decide) rfl
  have hsize : RequestHalf.Sends _ ⟨writer decoder (.chunkData (ascii "abc")) none, last⟩
      (ascii "3" ++ crlf) :=
    @RequestHalf.Sends.upstream _ _ _ _ _ (piece 1) 2 (ascii "3") hone rfl
      (show 1 + 2 ≤ 3 by decide) rfl
  have hsecond := ((hsize.piece rfl rfl (by decide)).piece rfl rfl (by decide)).piece rfl hclose (by decide)
  have hnameNe : (PendingBytes.headerName name).asBytes ≠ [] := by
    rw [PendingBytes.asBytes, hname]
    decide
  have hvalueNe : (PendingBytes.headerValue value).asBytes ≠ [] := by
    rw [PendingBytes.asBytes, hvalue]
    decide
  have hfield := (((hsecond.piece rfl rfl hnameNe).piece rfl rfl (by decide)).piece rfl rfl hvalueNe).piece
    rfl rfl (by decide)
  have hall := ((hfield.piece rfl rfl (by decide)).flush rfl rfl)
  simp only [PendingBytes.asBytes, hname, hvalue] at hall
  exact ⟨_, rfl, hall⟩

omit [HttpCrate] in
theorem request_encoding_chunked : ∃ (_ : HttpCrate) (half : RequestHalf), half.writer.complete = true ∧
    ∃ trailers fields,
      ((BodyDecoder.new .chunked).bodyOfContent chunkedBody).ending = .ok (trailers, half.source.content) ∧
      (∀ name, valuesOf name fields = forwardedValues [] trailers name) ∧
        Carries .chunked chunkedText ((BodyDecoder.new .chunked).bodyOfContent chunkedBody).data
          (fields.map wireField) := by
  let _ := HttpCrate.reference
  obtain ⟨half, hdone, hrun⟩ := sends_chunked
  have hmodest : Modest ⟨chunkedBody, .empty⟩ := (by decide : chunkedBody.length ≤ requestLineLimit)
  obtain ⟨trailers, fields, hending, hnames, hcarries⟩ := (request_encoding hmodest hrun).2 hdone
  exact ⟨_, half, hdone, trailers, fields, hending, hnames, hcarries⟩

end Vhrn.Proxy
