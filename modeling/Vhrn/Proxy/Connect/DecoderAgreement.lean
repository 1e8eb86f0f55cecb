import Vhrn.Proxy.Connect.OriginBody

/-!
# The two body decoders agree

Request bodies and response bodies are decoded by two decoders with readers and limits of their own.
Both read the body that the framing alone determines (`OriginDecoderState.rawBody`), whatever the pieces
in which either stream arrives; on what they have read each applies its own rules for trailers.
-/

namespace Vhrn.Proxy

variable [HttpCrate]

/-! ## Request bodies -/

omit [HttpCrate] in
def BodyFault.ingress : BodyFault → IngressError
  | .malformed => .badRequest
  | .trailersTooLarge => .headersTooLarge
  | .incomplete => .incomplete

/-- The body with the rules for the trailers of requests. -/
def RawBody.request (body : RawBody) : Body :=
  { data := body.data
    ending := match body.ending with
      | .error fault => .error fault.ingress
      | .ok (headers, rest) =>
        match validateTrailers headers with
        | .error error => .error error
        | .ok () => .ok (if headers.isEmpty then none else some headers, rest) }

namespace BodyDecoder

/-- What the decoder of a request body still has to read, in the terms of the other decoder. -/
def rawState (decoder : BodyDecoder) : OriginDecoderState :=
  match decoder.state with
  | .complete => .complete
  | .fixed remaining => .fixed remaining
  | .chunkSize => .chunkSize
  | .chunkData remaining => .chunkData remaining
  | .chunkDataEnd => .chunkDataEnd
  | .trailers => .trailers decoder.trailerHeaders decoder.trailerOctets

/-- No trailers have been read outside a trailer section. -/
def Fresh (decoder : BodyDecoder) : Prop :=
  decoder.state ≠ .trailers → decoder.trailerHeaders = .empty ∧ decoder.trailerOctets = 0

theorem request_end (data rest : Bytes) :
    RawBody.request ⟨data, .ok (.empty, rest)⟩ = ⟨data, .ok (none, rest)⟩ := by
  have hvalid : validateTrailers .empty = .ok ⟨⟩ := by
    rw [validateTrailers, HeaderMap.fields_empty]
    rfl
  have hempty : HeaderMap.empty.isEmpty = true := by
    rw [HeaderMap.isEmpty, HeaderMap.fields_empty]
    rfl
  unfold RawBody.request
  simp only [hvalid, hempty, if_true]

omit [HttpCrate] in
/-- Only the errors of the searches for line ends differ. -/
theorem bodyLineSearch_ofContent {tooLong : BodyFault} {limit : ℕ} {content : Bytes}
    {found : Except IngressError ℕ}
    (h : (lineSearch tooLong.ingress).ofContent limit content = found) :
    ∃ found', (bodyLineSearch tooLong).ofContent limit content = found' ∧
      found'.mapError BodyFault.ingress = found :=
  ⟨_, rfl, (Search.ofContent_mapError BodyFault.ingress (bodyLineSearch tooLong) limit content).symm.trans h⟩

omit [HttpCrate] in
theorem bodyLineSearch_ok (tooLong : BodyFault) {limit n : ℕ} {content : Bytes}
    (h : (lineSearch tooLong.ingress).ofContent limit content = .ok n) :
    (bodyLineSearch tooLong).ofContent limit content = .ok n := by
  obtain ⟨found, hfound, hmap⟩ := bodyLineSearch_ofContent h
  cases found with
  | error fault => cases hmap
  | ok m => rw [hfound, ← Except.ok.inj hmap]

omit [HttpCrate] in
theorem bodyLineSearch_error (tooLong : BodyFault) {limit : ℕ} {content : Bytes}
    {error : IngressError}
    (h : (lineSearch tooLong.ingress).ofContent limit content = .error error) :
    ∃ fault, (bodyLineSearch tooLong).ofContent limit content = .error fault ∧
      fault.ingress = error := by
  obtain ⟨found, hfound, hmap⟩ := bodyLineSearch_ofContent h
  cases found with
  | error fault => exact ⟨fault, hfound, Except.error.inj hmap⟩
  | ok m => cases hmap

omit [HttpCrate] in
theorem splitQuoted_error {value : Bytes} {delimiter : UInt8} {error : IngressError}
    (h : splitQuoted value delimiter = .error error) : error = .badRequest := by
  unfold splitQuoted at h
  split at h
  · cases h
  · exact (Except.error.inj h).symm

omit [HttpCrate] in
theorem parseChunkSize_error {line : Bytes} {error : IngressError}
    (h : parseChunkSize line = .error error) : error = .badRequest := by
  unfold parseChunkSize at h
  cases hparts : splitQuoted line 59 with
  | error error' =>
    rw [hparts] at h
    obtain rfl : error' = error := Except.error.inj h
    exact splitQuoted_error hparts
  | ok parts =>
    rw [hparts] at h
    simp only [bind, Except.bind, pure, Except.pure, throw, throwThe, MonadExceptOf.throw] at h
    split at h
    · exact (Except.error.inj h).symm
    · split at h
      · exact (Except.error.inj h).symm
      · split at h
        · cases h
        · exact (Except.error.inj h).symm

theorem appendFieldLine_error {headers : HeaderMap} {line : Bytes} {error : IngressError}
    (h : appendFieldLine headers line = .error error) : error = .badRequest := by
  unfold appendFieldLine at h
  split at h
  · exact (Except.error.inj h).symm
  · split at h
    · exact (Except.error.inj h).symm
    · split at h
      · exact (Except.error.inj h).symm
      · simp only at h
        split at h
        · exact (Except.error.inj h).symm
        · split at h
          · cases h
          · exact (Except.error.inj h).symm

open OriginDecoderState in
/-- **A request body is what its framing determines**, with the rules for the trailers of requests. -/
theorem bodyOfContent_eq {decoder : BodyDecoder} (hfresh : Fresh decoder) (content : Bytes) :
    decoder.bodyOfContent content = (decoder.rawState.rawBody content).request := by
  fun_induction bodyOfContent decoder content with
  | case1 decoder content hs =>
    rw [rawState, hs, rawBody_complete, request_end]
  | case2 decoder content remaining hs hlt =>
    rw [rawState, hs, rawBody_fixed, if_pos hlt]
    rfl
  | case3 decoder content remaining hs hlt =>
    rw [rawState, hs, rawBody_fixed, if_neg hlt, request_end]
  | case4 decoder content hs error hline =>
    obtain ⟨fault, hfault, rfl⟩ := bodyLineSearch_error .malformed hline
    rw [rawState, hs, rawBody_chunkSize_error hfault]
    rfl
  | case5 decoder content hs length hline error hsize =>
    have hline := bodyLineSearch_ok .malformed hline
    obtain rfl := parseChunkSize_error hsize
    rw [rawState, hs, rawBody_chunkSize_ok hline, hsize]
    rfl
  | case6 decoder content hs length hline size hsize ih =>
    have hline := bodyLineSearch_ok .malformed hline
    obtain ⟨hheaders, hoctets⟩ := hfresh (by rw [hs]; exact DecoderState.noConfusion)
    simp only [dite_eq_ite] at ih
    rw [ih fun _ => ⟨hheaders, hoctets⟩, rawState, rawState, hs, rawBody_chunkSize_ok hline, hsize]
    by_cases hzero : size = 0
    · simp only [hzero, if_true, hheaders, hoctets]
    · simp only [hzero, if_false]
  | case7 decoder content remaining hs hlt =>
    rw [rawState, hs, rawBody_chunkData, if_pos hlt]
    rfl
  | case8 decoder content remaining hs hlt ih =>
    rw [ih fun _ => hfresh (by rw [hs]; exact DecoderState.noConfusion), rawState, rawState, hs,
      rawBody_chunkData, if_neg hlt]
    rfl
  | case9 decoder content hs hlt =>
    rw [rawState, hs, rawBody_chunkDataEnd, if_pos hlt]
    rfl
  | case10 decoder content hs hlt hcrlf =>
    rw [rawState, hs, rawBody_chunkDataEnd, if_neg hlt, if_pos hcrlf]
    rfl
  | case11 decoder content hs hlt hcrlf ih =>
    rw [ih fun _ => hfresh (by rw [hs]; exact DecoderState.noConfusion), rawState, rawState, hs,
      rawBody_chunkDataEnd, if_neg hlt, if_neg hcrlf]
  | case12 decoder content hs error hline =>
    obtain ⟨fault, hfault, rfl⟩ := bodyLineSearch_error .trailersTooLarge hline
    rw [rawState, hs, rawBody_trailers_error hfault]
    rfl
  | case13 decoder content hs length hline line hempty error hvalid =>
    have hline := bodyLineSearch_ok .trailersTooLarge hline
    rw [rawState, hs, rawBody_trailers_ok hline, if_pos hempty]
    simp only [RawBody.request, hvalid]
  | case14 decoder content hs length hline line hempty hvalid trailers =>
    have hline := bodyLineSearch_ok .trailersTooLarge hline
    rw [rawState, hs, rawBody_trailers_ok hline, if_pos hempty]
    simp only [RawBody.request, hvalid, trailers]
  | case15 decoder content hs length hline line hempty error happend =>
    have hline := bodyLineSearch_ok .trailersTooLarge hline
    obtain rfl := appendFieldLine_error happend
    rw [rawState, hs, rawBody_trailers_ok hline, if_neg hempty, happend]
    rfl
  | case16 decoder content hs length hline line hempty headers happend ih =>
    have hline := bodyLineSearch_ok .trailersTooLarge hline
    rw [ih fun hne => absurd hs hne, rawState, rawState, hs, rawBody_trailers_ok hline,
      if_neg hempty, happend]

end BodyDecoder

/-! ## Agreement -/

omit [HttpCrate] in
/-- The framings that requests and responses share. -/
def BodyFraming.origin : BodyFraming → OriginBodyFraming
  | .none => .none
  | .contentLength length => .contentLength length
  | .chunked => .chunked

/-- The body at the start of a stream as its framing determines it. -/
def OriginBodyFraming.rawBody (framing : OriginBodyFraming) (content : Bytes) : RawBody :=
  (OriginDecoder.new framing []).state.rawBody content

omit [HttpCrate] in
/-- What a reader has of a stream at whose start a body is: part of it may be buffered, no more than the
reader of a head leaves. -/
structure BodySource (content : Bytes) where
  source : Source UInt8
  modest : Modest source
  content_eq : source.content = content

/-- After a request head the reader has the body's stream. -/
def BodySource.ofRequest {c : Http1Connection} (h : Modest c.source) {head : RequestHead}
    (hhead : c.readHead.1 = .ok (some head)) : BodySource c.readHead.2.source.content :=
  ⟨c.readHead.2.source, (readHead_spec h).2 head hhead, rfl⟩

/-- After a response head the reader has the body's stream. -/
def BodySource.ofResponse {requestMethod : Method} {source : Source UInt8} (h : Modest source)
    {head : OriginResponseHead} (hhead : (readResponseHead requestMethod source).1 = .ok head) :
    BodySource (readResponseHead requestMethod source).2.content :=
  ⟨_, (readResponseHead_spec h).2 head hhead, rfl⟩

theorem readBody_request (framing : BodyFraming) {content : Bytes} (downstream : BodySource content) :
    (BodyDecoder.new framing).readBody downstream.source = (framing.origin.rawBody content).request := by
  have hstate : (BodyDecoder.new framing).rawState = (OriginDecoder.new framing.origin []).state := by
    cases framing <;> rfl
  rw [BodyDecoder.readBody_eq (BodyDecoder.ready_new framing downstream.modest),
    BodyDecoder.bodyOfContent_eq fun _ => ⟨rfl, rfl⟩, downstream.content_eq, hstate,
    OriginBodyFraming.rawBody]

theorem readBody_response (framing : OriginBodyFraming) (nominations : List HeaderName)
    {content : Bytes} (upstream : BodySource content) :
    (OriginDecoder.new framing nominations).readBody upstream.source =
      (framing.rawBody content).origin nominations := by
  have hready := OriginDecoder.ready_new framing nominations upstream.modest
  rw [OriginDecoder.readBody_eq hready, upstream.content_eq]
  rfl

/-- **The two decoders agree.** On one stream, each with a buffer of its own and whatever the pieces in
which the stream arrives, both read the body that the framing determines: the same data, the same end in
the stream, the same fields of the trailer section, and a fault for the same reason at the same place.
They differ in the rules that each applies to the trailers it has read. -/
theorem decoders_agree (framing : BodyFraming) (nominations : List HeaderName) {content : Bytes}
    (downstream upstream : BodySource content) :
    (BodyDecoder.new framing).readBody downstream.source =
        (framing.origin.rawBody content).request ∧
      (OriginDecoder.new framing.origin nominations).readBody upstream.source =
        (framing.origin.rawBody content).origin nominations :=
  ⟨readBody_request framing downstream, readBody_response framing.origin nominations upstream⟩

end Vhrn.Proxy
