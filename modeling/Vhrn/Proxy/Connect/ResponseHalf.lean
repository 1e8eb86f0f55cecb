import Vhrn.Proxy.Connect.OriginBody
import Vhrn.Proxy.Connect.RequestWriter

/-!
# Forwarding response bodies

The response half of an exchange: the reader and the decoder of the origin's response, and the frame that
is being written to the client. The reader may be interrupted while it reads a head and asked for the head
again (`OriginAwaits`). `ResponseHalf.bounded_run` says that from the end of a head on, in every state,
what is held stays within one limit.
-/

namespace Vhrn.Proxy

variable [HttpCrate]

/-! ## Response heads -/

/-- One of the reads for a response head: for its status line, or, after that, for the rest of it. -/
inductive HeadReads (source source' : Source UInt8) : Prop
  | line (hread : source.pass ((originLineSearch .invalid).scan requestLineLimit) requestLineLimit
      (readRoom requestLineLimit) = .more source')
  | head {lineLength : ℕ}
      (hline : (originLineSearch .invalid).scan requestLineLimit source.buffered =
        some (.ok lineLength))
      (hread : source.pass ((originHeadSearch lineLength).scan (lineLength + headerSectionLimit))
        (lineLength + headerSectionLimit) (readRoom (lineLength + headerSectionLimit)) =
          .more source')

/-- The stream of an origin where a response head is awaited: on a new or a pooled connection, after
some of the reads for the head, or after an interim response. -/
inductive OriginAwaits : Source UInt8 → Prop
  | fresh {source : Source UInt8} (h : source.buffered = []) : OriginAwaits source
  | read {source source' : Source UInt8} (h : OriginAwaits source) (hread : HeadReads source source') :
      OriginAwaits source'
  | interim {source : Source UInt8} {requestMethod : Method} {head : OriginResponseHead}
      (h : OriginAwaits source) (hhead : (readResponseHead requestMethod source).1 = .ok head) :
      OriginAwaits (readResponseHead requestMethod source).2

/-- **A head does not depend on the reads for it that have been made.** -/
theorem readResponseHead_reads {requestMethod : Method} {source source' : Source UInt8}
    (h : HeadReads source source') :
    readResponseHead requestMethod source = readResponseHead requestMethod source' := by
  unfold readResponseHead
  cases h with
  | line hread =>
    have hsame : (originLineSearch .invalid).read requestLineLimit (readRoom requestLineLimit) source =
        (originLineSearch .invalid).read requestLineLimit (readRoom requestLineLimit) source' := by
      unfold Search.read
      rw [Source.fill_of_more hread]
    rw [hsame]
  | @head lineLength hline hread =>
    obtain ⟨-, -, arrived, rest, -, -, rfl⟩ := Source.pass_more hread
    have hline' := (originLineSearch .invalid).stable_scan requestLineLimit _ arrived _ hline
    have hsame : (originHeadSearch lineLength).read (lineLength + headerSectionLimit)
        (readRoom (lineLength + headerSectionLimit)) source =
        (originHeadSearch lineLength).read (lineLength + headerSectionLimit)
          (readRoom (lineLength + headerSectionLimit)) ⟨source.buffered ++ arrived, rest⟩ := by
      unfold Search.read
      rw [Source.fill_of_more hread]
    have hdecided : (originLineSearch .invalid).read requestLineLimit (readRoom requestLineLimit)
        ⟨source.buffered ++ arrived, rest⟩ = _ := Search.read_of_scan hline'
    rw [Search.read_of_scan hline, hdecided]
    simp only [hsame]

theorem OriginAwaits.start {source : Source UInt8} (h : OriginAwaits source) :
    ∃ start, Modest start ∧
      ∀ requestMethod, readResponseHead requestMethod source = readResponseHead requestMethod start := by
  induction h with
  | @fresh source h => exact ⟨source, by rw [Modest, h]; exact Nat.zero_le _, fun _ => rfl⟩
  | read h hread ih =>
    obtain ⟨start, hmodest, hsame⟩ := ih
    exact ⟨start, hmodest, fun m => (readResponseHead_reads hread).symm.trans (hsame m)⟩
  | @interim source requestMethod head h hhead ih =>
    obtain ⟨start, hmodest, hsame⟩ := ih
    rw [hsame] at hhead ⊢
    exact ⟨_, (readResponseHead_spec hmodest).2 head hhead, fun _ => rfl⟩

/-- **A response head leaves little buffered.** -/
theorem OriginAwaits.modest {source : Source UInt8} (h : OriginAwaits source)
    {requestMethod : Method} {head : OriginResponseHead}
    (hhead : (readResponseHead requestMethod source).1 = .ok head) :
    Modest (readResponseHead requestMethod source).2 := by
  obtain ⟨start, hmodest, hsame⟩ := h.start
  rw [hsame] at hhead ⊢
  exact (readResponseHead_spec hmodest).2 head hhead

/-! ## Reads -/

namespace OriginDecoder

/-- The loop in which the decoder reads into the buffer, where it does. -/
def loop (decoder : OriginDecoder) : Option (FillLoop UInt8) :=
  match decoder.state with
  | .chunkSize => some (syntaxLoop (originLineSearch .invalid) requestLineLimit (by decide))
  | .chunkDataEnd => some delimiterLoop
  | .trailers _ rawOctets =>
    some (syntaxLoop (originLineSearch .headersTooLarge) (headerSectionLimit - rawOctets)
      ((Nat.sub_le _ _).trans (by decide)))
  | _ => none

/-- The room of the read that the decoder makes next; `none` when it goes on without one. -/
def nextRead (decoder : OriginDecoder) (source : Source UInt8) : Option ℕ :=
  match decoder.state with
  | .fixed 0 => none
  | .fixed remaining | .chunkData remaining =>
    if source.buffered.isEmpty then
      some (min (min (min remaining applicationBufferLimit) responseBodyFrameLimit)
        applicationBufferLimit)
    else none
  | .closeDelimited =>
    if source.buffered.isEmpty then
      some (min (min applicationBufferLimit responseBodyFrameLimit) applicationBufferLimit)
    else none
  | _ => decoder.loop.bind (·.offers source.buffered)

/-- The decoder makes one of the reads of its next turn. -/
def Reads (decoder : OriginDecoder) (source source' : Source UInt8) : Prop :=
  ∃ loop, decoder.loop = some loop ∧ loop.Reads source source'

/-- What the decoder may buffer where it is. -/
def bufferLimit (decoder : OriginDecoder) : ℕ :=
  match decoder.state with
  | .trailers _ rawOctets => headerSectionLimit - rawOctets
  | _ => requestLineLimit

/-- A decoder and what is buffered, after some of the reads of its next turn. -/
def Reading (decoder : OriginDecoder) (source : Source UInt8) : Prop :=
  ∃ start, Ready decoder start ∧ Relation.ReflTransGen decoder.Reads start source

variable {decoder decoder' : OriginDecoder} {source source' : Source UInt8}

theorem Ready.reading (h : Ready decoder source) : Reading decoder source := ⟨source, h, .refl⟩

/-- **A turn does not depend on the reads of it that have been made.** -/
theorem turn_reads (h : decoder.Reads source source') : decoder.turn source = decoder.turn source' := by
  obtain ⟨loop, hloop, hreads⟩ := h
  unfold OriginDecoder.loop at hloop
  unfold turn
  split at hloop
  · rename_i hstate
    obtain rfl := Option.some.inj hloop
    rw [hstate]
    simp only [Search.read_of_reads hreads]
  · rename_i hstate
    obtain rfl := Option.some.inj hloop
    rw [hstate]
    simp only [readExactDelimiter, ensureBuffered]
    rw [show source.fill (ensured 2) 2 (2 - ·) = source'.fill (ensured 2) 2 (2 - ·) from
      FillLoop.fill_of_reads hreads]
  · rename_i hstate
    obtain rfl := Option.some.inj hloop
    rw [hstate]
    simp only [trailerTurn, Search.read_of_reads hreads]
  · cases hloop

theorem Reading.start (h : Reading decoder source) :
    ∃ start, Ready decoder start ∧ decoder.turn source = decoder.turn start := by
  obtain ⟨start, hready, hreads⟩ := h
  refine ⟨start, hready, ?_⟩
  induction hreads with
  | refl => rfl
  | tail _ hread ih => rw [← turn_reads hread, ih]

theorem Reading.read (h : Reading decoder source) (hread : decoder.Reads source source') :
    Reading decoder source' := by
  obtain ⟨start, hready, hreads⟩ := h
  exact ⟨start, hready, hreads.tail hread⟩

/-- What is buffered stays within the limit of the state. -/
theorem Reading.length_le (h : Reading decoder source) :
    source.buffered.length ≤ decoder.bufferLimit := by
  obtain ⟨start, hready, hreads⟩ := h
  cases hreads with
  | refl =>
    have hwithin := hready.within
    unfold trailerOctets at hwithin
    unfold bufferLimit
    split
    · rename_i hstate
      rw [hstate] at hwithin
      simp only at hwithin
      omega
    · exact hready.modest
  | tail _ hread =>
    obtain ⟨loop, hloop, hreads⟩ := hread
    refine (FillLoop.length_of_reads hreads).trans ?_
    unfold OriginDecoder.loop at hloop
    unfold bufferLimit
    split at hloop
    · rename_i hstate
      obtain rfl := Option.some.inj hloop
      rw [hstate]
      exact le_rfl
    · rename_i hstate
      obtain rfl := Option.some.inj hloop
      rw [hstate]
      show 2 ≤ requestLineLimit
      decide
    · rename_i hstate
      obtain rfl := Option.some.inj hloop
      rw [hstate]
      exact le_rfl
    · cases hloop

/-- **No read is offered without room.** -/
theorem nextRead_pos (h : Reading decoder source) {n : ℕ} (hn : decoder.nextRead source = some n) :
    1 ≤ n := by
  have hframe : 1 ≤ responseBodyFrameLimit := by decide
  have hlimit : 1 ≤ applicationBufferLimit := by decide
  unfold nextRead at hn
  split at hn
  · cases hn
  · rename_i remaining hzero hstate
    obtain ⟨-, hn⟩ := Option.ite_none_right_eq_some.mp hn
    obtain rfl := Option.some.inj hn
    have : remaining ≠ 0 := hzero
    omega
  · rename_i remaining hstate
    obtain ⟨-, hn⟩ := Option.ite_none_right_eq_some.mp hn
    obtain rfl := Option.some.inj hn
    obtain ⟨start, hready, -⟩ := h
    have := hready.remains remaining hstate
    omega
  · obtain ⟨-, hn⟩ := Option.ite_none_right_eq_some.mp hn
    obtain rfl := Option.some.inj hn
    omega
  · obtain ⟨loop, -, hoffers⟩ := Option.bind_eq_some_iff.mp hn
    exact FillLoop.offers_pos hoffers

/-! ## Trailers -/

/-- What the reader of a trailer section keeps. -/
def bufferedBytes (decoder : OriginDecoder) : ℕ :=
  match decoder.state with
  | .trailers headers _ => headerFieldBytes headers
  | _ => 0

/-- The trailers that are kept take no more octets than their lines took. -/
def Frugal (decoder : OriginDecoder) : Prop :=
  ∀ headers rawOctets, decoder.state = .trailers headers rawOctets →
    sectionOctets headers ≤ rawOctets

/-- What a turn does to what is kept, and the size of what it yields with what stays buffered. -/
def TurnFrugal : OriginTurn → Prop
  | .silent decoder _ => Frugal decoder
  | .frame (.data data) decoder source =>
    Frugal decoder ∧ decoder.bufferedBytes = 0 ∧ data.length ≤ responseBodyFrameLimit ∧
      data.length + source.buffered.length ≤ responseBodyFrameLimit
  | .frame (.trailers trailers) decoder source =>
    Frugal decoder ∧ decoder.bufferedBytes = 0 ∧
      headerFieldBytes trailers + source.buffered.length ≤ headerSectionLimit
  | .finished decoder _ => Frugal decoder ∧ decoder.bufferedBytes = 0
  | .failed .. => True

theorem frugal_of_state {state : OriginDecoderState} (hstate : decoder.state = state)
    (h : ∀ headers rawOctets, state ≠ .trailers headers rawOctets) :
    Frugal decoder ∧ decoder.bufferedBytes = 0 := by
  constructor
  · intro headers rawOctets htrailers
    exact absurd (hstate.symm.trans htrailers) (h headers rawOctets)
  · unfold bufferedBytes
    split
    · rename_i headers rawOctets htrailers
      exact absurd (hstate.symm.trans htrailers) (h headers rawOctets)
    · rfl

theorem dataTurn_frugal {remaining : ℕ} {after : ℕ → OriginDecoderState} (hready : Ready decoder source)
    (hafter : ∀ later headers rawOctets, after later ≠ .trailers headers rawOctets) :
    TurnFrugal (decoder.dataTurn remaining after source) := by
  have hlength := length_readData (min remaining applicationBufferLimit) source
  have hmodest : source.buffered.length ≤ requestLineLimit := hready.modest
  have hlimit : requestLineLimit ≤ responseBodyFrameLimit := by decide
  unfold dataTurn
  split
  · trivial
  · rename_i data left _ hread
    rw [hread] at hlength
    obtain ⟨hfrugal, hkept⟩ := @frugal_of_state _
      { decoder with state := after (remaining - data.length) } _ rfl (hafter _)
    simp only at hlength
    exact ⟨hfrugal, hkept, by omega, by omega⟩

theorem originTrailers_le {nominations : List HeaderName} {headers trailers : HeaderMap}
    (h : originTrailers nominations headers = .ok trailers) :
    headerFieldBytes trailers ≤ headerFieldBytes headers := by
  unfold originTrailers at h
  split at h
  · cases h
  · split at h
    · cases h
    · rename_i sanitized hsanitized
      obtain rfl := Except.ok.inj h
      exact (headerFieldBytes_removeAll _ _).trans (headerFieldBytes_sanitizeHopByHop hsanitized)

theorem trailerTurn_frugal {headers : HeaderMap} {rawOctets : ℕ} (hready : Ready decoder source)
    (h : Frugal decoder) (hstate : decoder.state = .trailers headers rawOctets) :
    TurnFrugal (decoder.trailerTurn headers rawOctets source) := by
  have hoctets : decoder.trailerOctets = rawOctets := by rw [trailerOctets, hstate]
  have hwithin := hready.within
  rw [hoctets] at hwithin
  have hlimit : headerSectionLimit - rawOctets ≤ connectionBufferLimit :=
    (Nat.sub_le _ _).trans (by decide)
  obtain ⟨-, -, -, -, hfits⟩ :=
    search_spec (originLineSearch .headersTooLarge) hlimit hready.modest (by omega)
  have hfind := @Search.find_of_read _ _ (originLineSearch .headersTooLarge)
    (headerSectionLimit - rawOctets) (readRoom (headerSectionLimit - rawOctets)) source
  have hsection := h headers rawOctets hstate
  unfold trailerTurn
  simp only
  generalize (originLineSearch .headersTooLarge).read (headerSectionLimit - rawOctets)
    (readRoom (headerSectionLimit - rawOctets)) source = line at *
  obtain ⟨_ | length, s⟩ := line
  · trivial
  · obtain ⟨hfind, -⟩ := hfind rfl
    obtain ⟨n, -, rfl⟩ := Option.map_eq_some_iff.mp hfind
    have hfits := hfits _ rfl
    simp only at hfits ⊢
    split
    · split
      · trivial
      · rename_i trailers htrailers
        obtain ⟨hfrugal, hkept⟩ := @frugal_of_state _ { decoder with state := .complete } _ rfl
          fun _ _ h => by cases h
        split
        · exact ⟨hfrugal, hkept⟩
        · refine ⟨hfrugal, hkept, ?_⟩
          have hle := originTrailers_le htrailers
          unfold sectionOctets at hsection
          omega
    · split
      · trivial
      · rename_i headers' happend
        intro headers'' rawOctets' htrailers
        obtain ⟨rfl, rfl⟩ := OriginDecoderState.trailers.inj htrailers
        unfold invalidOrigin at happend
        cases happend' : appendFieldLine headers (s.buffered.take (n + 2 - 2)) with
        | error error =>
          rw [happend'] at happend
          cases happend
        | ok headers'' =>
          rw [happend'] at happend
          obtain rfl := Except.ok.inj happend
          have hle := sectionOctets_appendFieldLine happend'
          rw [List.length_take] at hle
          omega

/-- **What is kept stays within what was taken, and what is yielded fits.** -/
theorem turn_frugal (hready : Ready decoder source) (h : Frugal decoder) :
    TurnFrugal (decoder.turn source) := by
  unfold turn
  split
  · rename_i hstate
    exact frugal_of_state hstate fun _ _ h => by cases h
  · exact (frugal_of_state rfl fun _ _ h => by cases h).1
  · exact dataTurn_frugal hready fun _ _ _ h => by cases h
  · split
    · trivial
    · simp only
      split
      · trivial
      · rename_i size _
        intro headers rawOctets htrailers
        change (if size = 0 then OriginDecoderState.trailers .empty 0 else .chunkData size) = _
          at htrailers
        split_ifs at htrailers
        obtain ⟨rfl, rfl⟩ := OriginDecoderState.trailers.inj htrailers
        exact sectionOctets_empty.le
  · refine dataTurn_frugal hready fun later headers rawOctets h => ?_
    split_ifs at h
  · split
    · trivial
    · exact (frugal_of_state rfl fun _ _ h => by cases h).1
  · rename_i hstate
    exact trailerTurn_frugal hready h hstate
  · rename_i hstate
    have hlength := length_readData applicationBufferLimit source
    have hmodest : source.buffered.length ≤ requestLineLimit := hready.modest
    have hlimit : requestLineLimit ≤ responseBodyFrameLimit := by decide
    split
    · exact frugal_of_state rfl fun _ _ h => by cases h
    · rename_i hread
      rw [hread] at hlength
      obtain ⟨hfrugal, hkept⟩ := frugal_of_state hstate fun _ _ h => by cases h
      simp only at hlength
      exact ⟨hfrugal, hkept, by omega, by omega⟩

/-! ## Frames -/

/-- **What the decoder keeps and what is buffered stay within the limit**, also between two reads. -/
theorem Reading.kept_le (h : Reading decoder source) (hf : Frugal decoder) :
    source.buffered.length + decoder.bufferedBytes ≤ applicationBufferLimit := by
  have hlength := h.length_le
  obtain ⟨start, hready, -⟩ := h
  have hstart := hready.within
  have hlimit : headerSectionLimit = applicationBufferLimit := by decide
  unfold trailerOctets at hstart
  unfold bufferLimit at hlength
  unfold bufferedBytes
  cases hstate : decoder.state with
  | trailers headers rawOctets =>
    have hsection := hf headers rawOctets hstate
    unfold sectionOctets at hsection
    rw [hstate] at hstart hlength
    simp only at hstart hlength ⊢
    omega
  | _ =>
    have hline : requestLineLimit ≤ applicationBufferLimit := by decide
    rw [hstate] at hlength
    exact hlength.trans hline

theorem nextFrame_of_turn (h : decoder.turn source = decoder.turn source') :
    decoder.nextFrame source = decoder.nextFrame source' := by
  rw [nextFrame, nextFrame]
  split <;> split <;> simp_all

theorem nextFrame_frugal (hready : Ready decoder source) (h : Frugal decoder) :
    TurnFrugal (frameTurn (decoder.nextFrame source)) := by
  have hlaw := turn_law hready
  have hfrugal := turn_frugal hready h
  fun_induction nextFrame decoder source with
  | case1 decoder source decoder' source' hturn ih =>
    rw [hturn] at hlaw hfrugal
    exact ih hlaw.2 hfrugal (turn_law hlaw.2) (turn_frugal hlaw.2 hfrugal)
  | case2 decoder source frame decoder' source' hturn =>
    rw [hturn] at hfrugal
    exact hfrugal
  | case3 decoder source decoder' source' hturn =>
    rw [hturn] at hfrugal
    exact hfrugal
  | case4 decoder source error decoder' source' hturn => trivial

theorem Reading.turn (h : Reading decoder source) (hf : Frugal decoder)
    (hturn : decoder.turn source = .silent decoder' source') :
    Reading decoder' source' ∧ Frugal decoder' := by
  obtain ⟨start, hready, heq⟩ := h.start
  have hlaw := turn_law hready
  have hfrugal := turn_frugal hready hf
  rw [← heq, hturn] at hlaw hfrugal
  exact ⟨hlaw.2.reading, hfrugal⟩

end OriginDecoder

/-! ## The response half of an exchange -/

/-- The octets of a frame in hand, with the prefix of its chunk. -/
def BodyFrame.octets : BodyFrame → ℕ
  | .data bytes => bytes.length + (chunkPrefix bytes.length).length
  | .trailers headers => headerFieldBytes headers

/-- The decoder, the origin's stream that it reads from, and the frame that is being written. -/
structure ResponseHalf where
  decoder : OriginDecoder
  source : Source UInt8
  frame : Option BodyFrame

namespace ResponseHalf

/-- What is held for the response: the unread part of the origin reader's buffer, the trailers that are
being read, and the frame in hand with its prefix. -/
def held (half : ResponseHalf) : ℕ :=
  half.source.buffered.length + half.decoder.bufferedBytes + (half.frame.map BodyFrame.octets).getD 0

/-- The room of the read that is made next; `none` when a frame is being written or the decoder goes on
without a read. -/
def nextRead (half : ResponseHalf) : Option ℕ :=
  match half.frame with
  | some _ => none
  | none => half.decoder.nextRead half.source

/-- The steps of the response half. While the next frame is read, every read and every turn of the
decoder is a step of its own. -/
inductive Step : ResponseHalf → ResponseHalf → Prop
  | read {decoder : OriginDecoder} {source source' : Source UInt8}
      (hread : decoder.Reads source source') : Step ⟨decoder, source, none⟩ ⟨decoder, source', none⟩
  | turn {decoder decoder' : OriginDecoder} {source source' : Source UInt8}
      (hturn : decoder.turn source = .silent decoder' source') :
      Step ⟨decoder, source, none⟩ ⟨decoder', source', none⟩
  | frame {decoder decoder' : OriginDecoder} {source source' : Source UInt8} {frame : Option BodyFrame}
      (hframe : decoder.nextFrame source = (.ok frame, decoder', source')) :
      Step ⟨decoder, source, none⟩ ⟨decoder', source', frame⟩
  | written {decoder : OriginDecoder} {source : Source UInt8} {frame : BodyFrame} :
      Step ⟨decoder, source, some frame⟩ ⟨decoder, source, none⟩

/-- The bound with what keeps it. -/
structure Bounded (half : ResponseHalf) : Prop where
  reading : half.decoder.Reading half.source
  frugal : half.decoder.Frugal
  held_le : half.held ≤ applicationBufferLimit

variable {decoder decoder' : OriginDecoder} {source source' : Source UInt8}
  {half half' : ResponseHalf}

theorem bounded_reading (hreading : decoder.Reading source) (hfrugal : decoder.Frugal) :
    Bounded ⟨decoder, source, none⟩ := ⟨hreading, hfrugal, hreading.kept_le hfrugal⟩

theorem bounded_frame (hreading : decoder.Reading source) (hfrugal : decoder.Frugal)
    {frame : Option BodyFrame} (hframe : decoder.nextFrame source = (.ok frame, decoder', source')) :
    Bounded ⟨decoder', source', frame⟩ := by
  obtain ⟨start, hready, hturn⟩ := hreading.start
  have hlaw := OriginDecoder.nextFrame_law hready
  have hsize := OriginDecoder.nextFrame_frugal hready hfrugal
  rw [← OriginDecoder.nextFrame_of_turn hturn, hframe] at hlaw hsize
  rcases frame with _ | data | trailers
  · exact bounded_reading hlaw.1.reading hsize.1
  · obtain ⟨hfrugal', hkept, hdata, hle⟩ := hsize
    refine ⟨hlaw.2.1.reading, hfrugal', ?_⟩
    have hprefix := length_chunkPrefix (hdata.trans (by decide : responseBodyFrameLimit ≤ _))
    have hlimit : responseBodyFrameLimit + chunkPrefixLimit = applicationBufferLimit := by decide
    show source'.buffered.length + decoder'.bufferedBytes +
      (data.length + (chunkPrefix data.length).length) ≤ _
    omega
  · obtain ⟨hfrugal', hkept, hle⟩ := hsize
    refine ⟨hlaw.1.reading, hfrugal', ?_⟩
    have hlimit : headerSectionLimit = applicationBufferLimit := by decide
    show source'.buffered.length + decoder'.bufferedBytes + headerFieldBytes trailers ≤ _
    omega

/-- **Every step keeps the bound.** -/
theorem bounded_step (h : Bounded half) (hstep : Step half half') : Bounded half' := by
  cases hstep with
  | read hread => exact bounded_reading (h.reading.read hread) h.frugal
  | turn hturn =>
    obtain ⟨hreading, hfrugal⟩ := h.reading.turn h.frugal hturn
    exact bounded_reading hreading hfrugal
  | frame hframe => exact bounded_frame h.reading h.frugal hframe
  | written => exact bounded_reading h.reading h.frugal

theorem bounded_new (framing : OriginBodyFraming) (nominations : List HeaderName)
    (h : Modest source) : Bounded ⟨.new framing nominations, source, none⟩ := by
  refine bounded_reading (OriginDecoder.ready_new framing nominations h).reading ?_
  intro headers rawOctets hstate
  cases framing <;> cases hstate

/-- **The response half stays within the limit.** -/
theorem bounded_run {framing : OriginBodyFraming} {nominations : List HeaderName} (h : Modest source)
    (hrun : Relation.ReflTransGen Step ⟨.new framing nominations, source, none⟩ half) :
    Bounded half := by
  induction hrun with
  | refl => exact bounded_new framing nominations h
  | tail _ hstep ih => exact bounded_step ih hstep

theorem Bounded.nextRead_pos (h : Bounded half) {n : ℕ} (hn : half.nextRead = some n) : 1 ≤ n := by
  unfold nextRead at hn
  split at hn
  · cases hn
  · exact OriginDecoder.nextRead_pos h.reading hn

end ResponseHalf

end Vhrn.Proxy
