import Vhrn.Proxy.Connect.Forward
import Vhrn.Proxy.Server.Http1.Buffering

/-!
# Forwarding request bodies

The request half of an exchange: a decoder that takes the body from the client's connection, and a writer
that gives it to the origin in pieces of its own. A piece is queued with the state that comes after it,
and the origin may take it in parts. `held_le` says that in every state what is held, of the connection's
buffer and of the writer together, stays within one limit.
-/

namespace Vhrn.Proxy

variable [HttpCrate]

/-! ## The writer -/

inductive RequestState
  | needFrame
  | chunkData (data : Bytes)
  | chunkEnd
  | trailerFields (fields : List (HeaderName × HeaderValue))
  | trailerValuePrefix (value : HeaderValue) (fields : List (HeaderName × HeaderValue))
  | trailerValue (value : HeaderValue) (fields : List (HeaderName × HeaderValue))
  | trailerLineEnd (fields : List (HeaderName × HeaderValue))
  | flush

def RequestState.bufferedBytes : RequestState → ℕ
  | .chunkData data => data.length
  | .trailerFields fields => fieldsOctets fields
  | .trailerValuePrefix value fields | .trailerValue value fields =>
    value.asBytes.length + fieldsOctets fields
  | .trailerLineEnd fields => fieldsOctets fields
  | .needFrame | .chunkEnd | .flush => 0

inductive PendingBytes
  | bytes (octets : Bytes)
  | headerName (name : HeaderName)
  | headerValue (value : HeaderValue)

def PendingBytes.asBytes : PendingBytes → Bytes
  | .bytes octets => octets
  | .headerName name => name.asStr
  | .headerValue value => value.asBytes

/-- A piece that is being written, how much of it was taken, and the state that comes after it. -/
structure PendingWrite where
  bytes : PendingBytes
  offset : ℕ
  next : RequestState

def PendingWrite.bufferedBytes (pending : PendingWrite) : ℕ :=
  pending.bytes.asBytes.length - pending.offset + pending.next.bufferedBytes

structure RequestWriter where
  decoder : BodyDecoder
  chunked : Bool
  state : RequestState
  pending : Option PendingWrite
  trailerNominations : List HeaderName
  complete : Bool

/-- The fields of a map in the order of consumption, the name of repeated ones restored. `currentName`
is the name of the values that come without one. -/
def ownedFieldsFrom (currentName : Option HeaderName) :
    List (Option HeaderName × HeaderValue) → List (HeaderName × HeaderValue)
  | [] => []
  | (some name, value) :: entries =>
    let repeatedNext := entries.head?.any (·.1.isNone)
    (name, value) :: ownedFieldsFrom (if repeatedNext then some name else currentName) entries
  | (none, value) :: entries =>
    let repeatedNext := entries.head?.any (·.1.isNone)
    match currentName with
    | some name => (name, value) :: ownedFieldsFrom (if repeatedNext then some name else none) entries
    | none => ownedFieldsFrom none entries

def ownedFields (headers : HeaderMap) : List (HeaderName × HeaderValue) :=
  ownedFieldsFrom none (HttpCrate.intoIter headers)

namespace RequestWriter

def new (framing : BodyFraming) (trailerNominations : List HeaderName) : RequestWriter :=
  { decoder := .new framing
    chunked := framing == .chunked
    state := .needFrame
    pending := none
    trailerNominations
    complete := false }

def waitingOnUpstream (writer : RequestWriter) : Bool :=
  writer.pending.isSome || match writer.state with
    | .flush => true
    | _ => false

def bufferedBytes (writer : RequestWriter) : ℕ :=
  writer.decoder.bufferedBytes + writer.state.bufferedBytes +
    (writer.pending.map PendingWrite.bufferedBytes).getD 0

/-- The upstream half of a step: a write that takes so many octets of the piece, or a flush. -/
def stepUpstream (writer : RequestWriter) (written : ℕ) : Except ForwardErrorKind RequestWriter :=
  match writer.pending with
  | some pending =>
    if written = 0 then .error .badGateway
    else
      let pending := { pending with offset := pending.offset + written }
      if pending.offset = pending.bytes.asBytes.length then
        .ok { writer with pending := none, state := pending.next }
      else .ok { writer with pending := some pending }
  | none => .ok { writer with complete := true }

/-- Queues a piece. The state was taken out for it. -/
def queue (writer : RequestWriter) (bytes : PendingBytes) (next : RequestState) : RequestWriter :=
  { writer with state := .needFrame, pending := some { bytes, offset := 0, next } }

/-- What is queued for the next frame of the body, or for its end. -/
def queueFrame (writer : RequestWriter) : Option BodyFrame → Except ForwardErrorKind RequestWriter
  | some (.data data) =>
    if writer.chunked then .ok (writer.queue (.bytes (chunkPrefix data.length)) (.chunkData data))
    else .ok (writer.queue (.bytes data) .needFrame)
  | some (.trailers trailers) =>
    match sanitizeHopByHop trailers with
    | none => .error .badRequest
    | some trailers =>
      let fields := ownedFields (removeAll trailers writer.trailerNominations)
      .ok (writer.queue (.bytes (48 :: crlf)) (.trailerFields fields))
  | none =>
    if writer.chunked then .ok (writer.queue (.bytes (48 :: crlf ++ crlf)) .flush)
    else .ok { writer with state := .flush }

/-- The downstream half of a step: the next frame is read, or the next piece of one is queued. -/
def stepDownstream (writer : RequestWriter) (source : Source UInt8) :
    Except ForwardErrorKind RequestWriter × Source UInt8 :=
  match writer.state with
  | .needFrame =>
    match writer.decoder.nextFrame source with
    | (.error _, _, source) => (.error .badRequest, source)
    | (.ok frame, decoder, source) => ({ writer with decoder }.queueFrame frame, source)
  | .chunkData data => (.ok (writer.queue (.bytes data) .chunkEnd), source)
  | .chunkEnd => (.ok (writer.queue (.bytes crlf) .needFrame), source)
  | .trailerFields ((name, value) :: fields) =>
    (.ok (writer.queue (.headerName name) (.trailerValuePrefix value fields)), source)
  | .trailerFields [] => (.ok (writer.queue (.bytes crlf) .flush), source)
  | .trailerValuePrefix value fields =>
    (.ok (writer.queue (.bytes (ascii ": ")) (.trailerValue value fields)), source)
  | .trailerValue value fields =>
    (.ok (writer.queue (.headerValue value) (.trailerLineEnd fields)), source)
  | .trailerLineEnd fields => (.ok (writer.queue (.bytes crlf) (.trailerFields fields)), source)
  | .flush => (.ok writer, source)

end RequestWriter

/-! ## The fields of trailers -/

/-- The names that are restored are the names that were left out. -/
theorem ownedFieldsFrom_eq {currentName previous : Option HeaderName}
    {entries : List (Option HeaderName × HeaderValue)}
    (h : entries.head?.any (·.1.isNone) = true → currentName = previous) :
    ownedFieldsFrom currentName entries = fillNames previous entries := by
  induction entries generalizing currentName previous with
  | nil => cases previous <;> rfl
  | cons entry entries ih =>
    obtain ⟨name | name, value⟩ := entry
    · obtain rfl := h rfl
      cases currentName with
      | none =>
        rw [ownedFieldsFrom, fillNames]
        exact ih fun _ => rfl
      | some name =>
        rw [ownedFieldsFrom, fillNames]
        exact congrArg _ (ih fun hnext => if_pos hnext)
    · rw [ownedFieldsFrom, fillNames]
      exact congrArg _ (ih fun hnext => if_pos hnext)

/-- **The fields that are written are the fields of the map**, but for their order. -/
theorem ownedFields_perm (headers : HeaderMap) : (ownedFields headers).Perm headers.fields := by
  refine perm_of_valuesOf fun name => ?_
  rw [HeaderMap.valuesOf_fields, ownedFields, ownedFieldsFrom_eq fun _ => rfl,
    HttpCrate.valuesOf_intoIter]

theorem fieldsOctets_ownedFields (headers : HeaderMap) :
    fieldsOctets (ownedFields headers) = headerFieldBytes headers :=
  fieldsOctets_perm (ownedFields_perm headers)

omit [HttpCrate] in
/-- The prefix of a chunk that fits the buffer is within its limit. -/
theorem length_chunkPrefix {length : ℕ} (h : length ≤ applicationBufferLimit) :
    (chunkPrefix length).length ≤ chunkPrefixLimit := by
  have hlt : length < 16 ^ 16 := h.trans_lt (by decide)
  have hdigits := Numerals.length_numeral_le (by decide) (by decide) hlt
  rw [chunkPrefix, List.length_append]
  show _ + 2 ≤ 8 * 2 + 2
  omega

/-! ## The request half of an exchange -/

/-- The writer and the client's stream that it reads from. -/
structure RequestHalf where
  writer : RequestWriter
  source : Source UInt8

namespace RequestHalf

/-- What is held for the request: the unread part of the connection's buffer, and what the writer has. -/
def held (half : RequestHalf) : ℕ := half.source.buffered.length + half.writer.bufferedBytes

/-- The room of the read that is made next; `none` when the writer does not read or goes on without. -/
def nextRead (half : RequestHalf) : Option ℕ :=
  if half.writer.waitingOnUpstream then none
  else match half.writer.state with
    | .needFrame => half.writer.decoder.nextRead half.source
    | _ => none

/-- The steps of the request half. While the next frame is read, every read and every turn of the
decoder is a step of its own, so a frame may be given up at any of them and asked for again. -/
inductive Step : RequestHalf → RequestHalf → Prop
  | read {writer : RequestWriter} {source source' : Source UInt8}
      (hwaiting : writer.waitingOnUpstream = false) (hstate : writer.state = .needFrame)
      (hread : writer.decoder.Reads source source') : Step ⟨writer, source⟩ ⟨writer, source'⟩
  | turn {writer : RequestWriter} {source source' : Source UInt8} {decoder : BodyDecoder}
      (hwaiting : writer.waitingOnUpstream = false) (hstate : writer.state = .needFrame)
      (hturn : writer.decoder.turn source = .silent decoder source') :
      Step ⟨writer, source⟩ ⟨{ writer with decoder }, source'⟩
  | downstream {writer writer' : RequestWriter} {source source' : Source UInt8}
      (hwaiting : writer.waitingOnUpstream = false)
      (hstep : writer.stepDownstream source = (.ok writer', source')) :
      Step ⟨writer, source⟩ ⟨writer', source'⟩
  | upstream {writer writer' : RequestWriter} {source : Source UInt8} {written : ℕ}
      (hwaiting : writer.waitingOnUpstream = true)
      (hwritten : ∀ pending ∈ writer.pending,
        pending.offset + written ≤ pending.bytes.asBytes.length)
      (hstep : writer.stepUpstream written = .ok writer') : Step ⟨writer, source⟩ ⟨writer', source⟩

end RequestHalf

/-- The most that is held from a state on, until the next frame is read. -/
def RequestState.peak : RequestState → ℕ
  | .chunkData data => data.length + 2
  | .chunkEnd => 2
  | .trailerFields fields | .trailerLineEnd fields => fieldsOctets fields + 3
  | .trailerValuePrefix value fields | .trailerValue value fields =>
    value.asBytes.length + fieldsOctets fields + 3
  | .needFrame | .flush => 0

theorem RequestState.bufferedBytes_le_peak (state : RequestState) :
    state.bufferedBytes ≤ state.peak := by
  cases state <;> simp only [bufferedBytes, peak] <;> omega

namespace RequestHalf

/-- What is held whatever the writer does without the decoder. -/
def base (half : RequestHalf) : ℕ :=
  half.source.buffered.length + half.writer.decoder.bufferedBytes

/-- The bound with all that keeps it: the decoder keeps little, and what the writer has queued stays
within what is left, until the next frame is read. -/
structure Bounded (half : RequestHalf) : Prop where
  reading : half.writer.decoder.Reading half.source
  frugal : half.writer.decoder.Frugal
  state_le : half.base + half.writer.state.peak ≤ applicationBufferLimit
  pending_le : ∀ pending ∈ half.writer.pending, half.writer.state = .needFrame ∧
    half.base + pending.bufferedBytes ≤ applicationBufferLimit ∧
    half.base + pending.next.peak ≤ applicationBufferLimit

variable {writer writer' : RequestWriter} {source source' : Source UInt8} {half half' : RequestHalf}

theorem Bounded.held_le (h : Bounded half) : half.held ≤ applicationBufferLimit := by
  have hpeak := half.writer.state.bufferedBytes_le_peak
  have hstate := h.state_le
  have hpending := h.pending_le
  unfold base at hstate hpending
  unfold held RequestWriter.bufferedBytes
  cases hp : half.writer.pending with
  | none =>
    show _ + (_ + _ + 0) ≤ _
    omega
  | some pending =>
    obtain ⟨hneed, hle, -⟩ := hpending pending hp
    rw [hneed]
    show _ + (_ + 0 + pending.bufferedBytes) ≤ _
    omega

theorem Bounded.nextRead_pos (h : Bounded half) {n : ℕ} (hn : half.nextRead = some n) : 1 ≤ n := by
  unfold nextRead at hn
  split at hn
  · cases hn
  · split at hn
    · exact BodyDecoder.nextRead_pos h.reading hn
    · cases hn

theorem pending_of_waiting (h : writer.waitingOnUpstream = false) : writer.pending = none :=
  Option.not_isSome_iff_eq_none.mp (Bool.not_eq_true _ ▸ (Bool.or_eq_false_iff.mp h).1)

/-- While the next frame is read, nothing is queued. -/
theorem bounded_decoding (hreading : writer.decoder.Reading source) (hfrugal : writer.decoder.Frugal)
    (hstate : writer.state = .needFrame) (hpending : writer.pending = none) :
    Bounded ⟨writer, source⟩ := by
  refine ⟨hreading, hfrugal, ?_, fun pending h => ?_⟩
  · show _ + writer.state.peak ≤ _
    rw [hstate]
    exact hreading.kept_le hfrugal
  · rw [hpending] at h
    cases h

/-- A piece may be queued when it fits with all that comes after it. -/
theorem bounded_queue (hreading : writer.decoder.Reading source) (hfrugal : writer.decoder.Frugal)
    {bytes : PendingBytes} {next : RequestState}
    (hbytes : (RequestHalf.mk writer source).base + bytes.asBytes.length + next.bufferedBytes ≤
      applicationBufferLimit)
    (hnext : (RequestHalf.mk writer source).base + next.peak ≤ applicationBufferLimit) :
    Bounded ⟨writer.queue bytes next, source⟩ := by
  refine ⟨hreading, hfrugal, hreading.kept_le hfrugal, fun pending h => ?_⟩
  obtain rfl := Option.some.inj h
  refine ⟨rfl, ?_, hnext⟩
  show _ + (_ - 0 + _) ≤ _
  rw [Nat.sub_zero, ← Nat.add_assoc]
  exact hbytes

/-- What is queued for a frame fits. -/
theorem bounded_queueFrame {frame : Option BodyFrame}
    (hread : BodyDecoder.FrameRead frame writer.decoder source) (hpending : writer.pending = none)
    (hqueue : writer.queueFrame frame = .ok writer') : Bounded ⟨writer', source⟩ := by
  have hfrugal : writer.decoder.Frugal := .of_empty hread.empty
  have hbase : (RequestHalf.mk writer source).base = source.buffered.length := by
    show _ + headerFieldBytes writer.decoder.trailerHeaders = _
    rw [hread.empty, headerFieldBytes, HeaderMap.fields_empty]
    rfl
  have hmodest : source.buffered.length ≤ requestLineLimit := hread.ready.modest
  have hlimit : requestLineLimit + requestBodyFrameLimit + chunkPrefixLimit ≤ applicationBufferLimit := by
    decide
  have hprefix : 5 ≤ chunkPrefixLimit := by decide
  unfold RequestWriter.queueFrame at hqueue
  split at hqueue
  · rename_i data
    have hdata := hread.data_le data rfl
    have hchunk := length_chunkPrefix (hdata.trans (by decide : requestBodyFrameLimit ≤ _))
    split at hqueue <;> obtain rfl := Except.ok.inj hqueue
    · refine bounded_queue hread.ready.reading hfrugal ?_ ?_
      · rw [hbase]
        show _ + (chunkPrefix data.length).length + data.length ≤ _
        omega
      · rw [hbase]
        show _ + (data.length + 2) ≤ _
        omega
    · refine bounded_queue hread.ready.reading hfrugal ?_ ?_
      · rw [hbase]
        show _ + data.length + 0 ≤ _
        omega
      · rw [hbase]
        show _ + 0 ≤ _
        omega
  · rename_i trailers
    obtain ⟨hnonempty, hoctets⟩ := hread.trailers_le trailers rfl
    have hwithin := hread.ready.within
    have hfields : 1 ≤ trailers.fields.length := List.length_pos_iff.mpr fun hnil => by
      rw [HeaderMap.isEmpty, hnil] at hnonempty
      cases hnonempty
    split at hqueue
    · cases hqueue
    · rename_i sanitized hsanitized
      obtain rfl := Except.ok.inj hqueue
      have hkept : fieldsOctets (ownedFields (removeAll sanitized writer.trailerNominations)) ≤
          headerFieldBytes trailers := by
        rw [fieldsOctets_ownedFields]
        exact (headerFieldBytes_removeAll _ _).trans (headerFieldBytes_sanitizeHopByHop hsanitized)
      have hsection : headerFieldBytes trailers + 3 * trailers.fields.length + 2 ≤
        writer.decoder.trailerOctets := hoctets
      have hsame : headerSectionLimit = applicationBufferLimit := by decide
      refine bounded_queue hread.ready.reading hfrugal ?_ ?_
      · rw [hbase]
        show _ + 3 + fieldsOctets _ ≤ _
        omega
      · rw [hbase]
        show _ + (fieldsOctets _ + 3) ≤ _
        omega
  · split at hqueue <;> obtain rfl := Except.ok.inj hqueue
    · refine bounded_queue hread.ready.reading hfrugal ?_ ?_
      · rw [hbase]
        show _ + 5 + 0 ≤ _
        omega
      · rw [hbase]
        show _ + 0 ≤ _
        omega
    · refine ⟨hread.ready.reading, hfrugal, hread.ready.reading.kept_le hfrugal, fun pending h => ?_⟩
      rw [show ({ writer with state := .flush } : RequestWriter).pending = none from hpending] at h
      cases h

/-- What is queued after a state that is not for the next frame fits with what was held. -/
theorem Bounded.queue (h : Bounded ⟨writer, source⟩) {bytes : PendingBytes} {next : RequestState}
    (hbytes : bytes.asBytes.length + next.bufferedBytes ≤ writer.state.peak)
    (hnext : next.peak ≤ writer.state.peak) : Bounded ⟨writer.queue bytes next, source⟩ := by
  have hstate : (RequestHalf.mk writer source).base + writer.state.peak ≤ applicationBufferLimit :=
    h.state_le
  exact @bounded_queue _ writer source h.reading h.frugal _ _ (by omega) (by omega)

theorem bounded_downstream (h : Bounded ⟨writer, source⟩) (hwaiting : writer.waitingOnUpstream = false)
    (hstep : writer.stepDownstream source = (.ok writer', source')) : Bounded ⟨writer', source'⟩ := by
  have hpending := pending_of_waiting hwaiting
  unfold RequestWriter.stepDownstream at hstep
  split at hstep
  · split at hstep
    · cases (Prod.mk.inj hstep).1
    · rename_i frame decoder source'' hframe
      obtain ⟨hqueue, rfl⟩ := Prod.mk.inj hstep
      have hread := BodyDecoder.nextFrame_spec h.reading h.frugal hframe
      exact @bounded_queueFrame _ { writer with decoder } _ _ _ hread hpending hqueue
  all_goals
    rename_i hstate
    obtain ⟨hqueue, rfl⟩ := Prod.mk.inj hstep
    obtain rfl := Except.ok.inj hqueue
  · refine h.queue ?_ ?_ <;> rw [hstate]
    · exact Nat.le_add_right _ 2
    · exact Nat.le_add_left 2 _
  · refine h.queue ?_ ?_ <;> rw [hstate]
    · exact le_rfl
    · exact Nat.zero_le 2
  · rename_i name value fields
    refine h.queue ?_ ?_ <;> rw [hstate]
    · show name.asStr.length + (_ + fieldsOctets fields) ≤ fieldsOctets ((name, value) :: fields) + 3
      rw [fieldsOctets_cons]
      omega
    · show _ + fieldsOctets fields + 3 ≤ fieldsOctets ((name, value) :: fields) + 3
      rw [fieldsOctets_cons]
      omega
  · refine h.queue ?_ ?_ <;> rw [hstate]
    · show 2 + 0 ≤ fieldsOctets [] + 3
      omega
    · exact Nat.zero_le _
  · rename_i value fields
    refine h.queue ?_ ?_ <;> rw [hstate]
    · show 2 + (value.asBytes.length + fieldsOctets fields) ≤ _ + _ + 3
      omega
    · exact le_rfl
  · refine h.queue ?_ ?_ <;> rw [hstate]
    · exact Nat.le_add_right _ 3
    · show _ + 3 ≤ _ + _ + 3
      omega
  · rename_i fields
    refine h.queue ?_ ?_ <;> rw [hstate]
    · show 2 + fieldsOctets fields ≤ _ + 3
      omega
    · exact le_rfl
  · exact h

theorem bounded_upstream (h : Bounded ⟨writer, source⟩) {written : ℕ}
    (hstep : writer.stepUpstream written = .ok writer') : Bounded ⟨writer', source⟩ := by
  unfold RequestWriter.stepUpstream at hstep
  split at hstep
  · rename_i pending hpending
    obtain ⟨hneed, hle, hnext⟩ := h.pending_le pending hpending
    split at hstep
    · cases hstep
    · simp only at hstep
      split at hstep <;> obtain rfl := Except.ok.inj hstep
      · refine ⟨h.reading, h.frugal, hnext, fun _ h => ?_⟩
        cases h
      · refine ⟨h.reading, h.frugal, h.state_le, fun pending' h => ?_⟩
        obtain rfl := Option.some.inj h
        have hrest : pending.bytes.asBytes.length - (pending.offset + written) ≤
            pending.bytes.asBytes.length - pending.offset :=
          Nat.sub_le_sub_left (Nat.le_add_right _ _) _
        exact ⟨hneed, (Nat.add_le_add_left (Nat.add_le_add_right hrest _) _).trans hle, hnext⟩
  · rename_i hpending
    obtain rfl := Except.ok.inj hstep
    exact ⟨h.reading, h.frugal, h.state_le, h.pending_le⟩

/-- **Every step keeps the bound.** -/
theorem bounded_step (h : Bounded half) (hstep : Step half half') : Bounded half' := by
  cases hstep with
  | read hwaiting hstate hread =>
    exact bounded_decoding (h.reading.read hread) h.frugal hstate (pending_of_waiting hwaiting)
  | @turn writer source source' decoder hwaiting hstate hturn =>
    have hfrugal : BodyDecoder.TurnFrugal (writer.decoder.turn source) :=
      BodyDecoder.turn_frugal h.frugal
    rw [hturn] at hfrugal
    exact bounded_decoding (h.reading.turn hturn) hfrugal hstate (pending_of_waiting hwaiting)
  | downstream hwaiting hstep => exact bounded_downstream h hwaiting hstep
  | upstream _ _ hstep => exact bounded_upstream h hstep

theorem bounded_new (framing : BodyFraming) (nominations : List HeaderName) (h : Modest source) :
    Bounded ⟨.new framing nominations, source⟩ :=
  bounded_decoding (BodyDecoder.ready_new framing h).reading (BodyDecoder.frugal_new framing) rfl rfl

/-- **The request half stays within the limit.** -/
theorem bounded_run {framing : BodyFraming} {nominations : List HeaderName} (h : Modest source)
    (hrun : Relation.ReflTransGen Step ⟨.new framing nominations, source⟩ half) : Bounded half := by
  induction hrun with
  | refl => exact bounded_new framing nominations h
  | tail _ hstep ih => exact bounded_step ih hstep

end RequestHalf

end Vhrn.Proxy
