import Vhrn.Proxy.Connect.OutboundHead

/-!
# What an origin reads of a connection

A connection to an origin carries requests one after another. `RequestRun` is what it was sent of one of
them: the head, and what the origin took of the body in some run of the request half. The origin reads a
stream by the grammar of the proxy for heads and by the chunked coding for bodies (`originRequest`).
`origin_reads_forwarded` says that, whatever was sent, it reads the requests that the proxy accepted, in
their order, and nothing else: a request that is still on its way is not read as another one.
-/

namespace Vhrn.Proxy

variable [HttpCrate]

/-! ## Reading -/

/-- A request as an origin reads it. -/
structure OriginRequest where
  head : RequestHead
  data : Bytes
  trailers : List ChunkedCoding.Field

/-- The data and the trailers of a body with the given framing at the start of a text, and what follows. -/
def originBody (framing : BodyFraming) (text : Bytes) :
    Option ((Bytes × List ChunkedCoding.Field) × Bytes) :=
  match framing with
  | .none => some (([], []), text)
  | .contentLength length =>
    if length ≤ text.length then some ((text.take length, []), text.drop length) else none
  | .chunked => (ChunkedCoding.decode text).map fun (data, trailers, rest) => ((data, trailers), rest)

/-- The request at the start of a text, and what follows it. -/
def originRequest (text : Bytes) : Option (OriginRequest × Bytes) :=
  match (headOfContent text).1 with
  | .ok (some (head, followed)) => (originBody head.framing followed).map fun ((data, trailers), rest) =>
      (⟨head, data, trailers⟩, rest)
  | _ => none

variable {text rest data sent : Bytes} {trailers : List ChunkedCoding.Field} {framing : BodyFraming}

omit [HttpCrate] in
theorem extends_originBody (framing : BodyFraming) : Extends (originBody framing) := by
  intro text body rest more h
  unfold originBody at h ⊢
  cases framing with
  | none =>
    obtain ⟨rfl, rfl⟩ := Prod.mk.inj (Option.some.inj h)
    rfl
  | contentLength length =>
    simp only at h ⊢
    split at h
    · rename_i hle
      obtain ⟨rfl, rfl⟩ := Prod.mk.inj (Option.some.inj h)
      rw [if_pos (by rw [List.length_append]; omega), List.take_append_of_le_length hle,
        List.drop_append_of_le_length hle]
    · cases h
  | chunked =>
    obtain ⟨⟨data, trailers, rest'⟩, hdecode, heq⟩ := Option.map_eq_some_iff.mp h
    obtain ⟨rfl, rfl⟩ := Prod.mk.inj heq
    simp only [ChunkedCoding.decode_append hdecode more, Option.map_some]

omit [HttpCrate] in
/-- A body is read of the octets that carry it. -/
theorem Carries.read (h : Carries framing sent data trailers) (rest : Bytes) :
    originBody framing (sent ++ rest) = some ((data, trailers), rest) := by
  cases framing with
  | none =>
    obtain ⟨rfl, rfl, rfl⟩ := h
    rfl
  | contentLength length =>
    obtain ⟨rfl, rfl, rfl⟩ := h
    rw [originBody]
    simp
  | chunked => simp only [originBody, h rest, Option.map_some]

theorem originRequest_nil : originRequest [] = none := by
  cases h : originRequest [] with
  | none => rfl
  | some found =>
    unfold originRequest at h
    split at h
    · rename_i hhead
      exact absurd (headOfContent_rest hhead).2 (Nat.not_lt_zero _)
    · cases h

/-! ## Sending -/

/-- A request that is forwarded: the head that was accepted, where it goes, its outbound text, and the
client's connection after the head. -/
structure OutboundRequest where
  content : Bytes
  isHead : Bool
  head : RequestHead
  followed : Bytes
  destination : Destination
  nominated : List HeaderName
  headOctets : Bytes
  source : Source UInt8
  accepted : headOfContent content = (.ok (some (head, followed)), isHead)
  notConnect : head.method ≠ Method.connect
  target : (classify head.method head.rawTarget).destination = some destination
  nominates : connectionNominations head.headers = some nominated
  written : serializeRequestHead head destination.pathAndQuery destination.host = some headOctets
  modest : Modest source
  follows : source.content = followed

/-- The request half at the start. -/
def OutboundRequest.half (request : OutboundRequest) : RequestHalf :=
  ⟨.new request.head.framing request.nominated, request.source⟩

/-- What an origin was sent of one request, in some run of the request half. -/
structure RequestRun extends OutboundRequest where
  reached : RequestHalf
  sent : Bytes
  sends : RequestHalf.Sends toOutboundRequest.half reached sent

namespace RequestRun

/-- What the origin was sent. -/
def octets (run : RequestRun) : Bytes := run.headOctets ++ run.sent

/-- The request is that of the run: its head is the accepted one for the destination, and its body is the
client's, with the trailers that go on. -/
def Forwards (run : RequestRun) (request : OriginRequest) : Prop :=
  (∃ host, host.asBytes = run.destination.host ∧
    ReadAs run.head run.nominated run.destination.pathAndQuery host request.head) ∧
  ∃ trailers rest fields, run.head.bodyOfContent run.followed = ⟨request.data, .ok (trailers, rest)⟩ ∧
    (∀ name, valuesOf name fields = forwardedValues run.nominated trailers name) ∧
      request.trailers = fields.map wireField

variable {run : RequestRun} {part rest : Bytes} {request : OriginRequest}

/-- The head of a run is read, unless it is too long. -/
theorem read_head (run : RequestRun) : ∃ host outbound, host.asBytes = run.destination.host ∧
    ReadAs run.head run.nominated run.destination.pathAndQuery host outbound ∧
      ((∀ rest, headOfContent (run.headOctets ++ rest) = (.ok (some (outbound, rest)), run.isHead)) ∨
        headerSectionLimit < run.headOctets.length ∧
          ∀ rest, headOfContent (run.headOctets ++ rest) = (.error .headersTooLarge, run.isHead)) := by
  obtain ⟨nominated, host, outbound, headers, hnominated, hhost, hwritten, hread, hline, hfits, hparse,
    hmark⟩ := outbound_text run.accepted run.notConnect run.target
  obtain rfl := Option.some.inj (hnominated.symm.trans run.nominates)
  have htext := Option.some.inj (run.written.symm.trans (serializeRequestHead_eq hwritten))
  rw [htext]
  exact ⟨host, outbound, hhost, hread, hmark ▸ headOfContent_fields hline hfits hparse⟩

omit [HttpCrate] in
/-- Chunks without an end are no body. -/
theorem not_read_chunks {pieces : List Bytes} (hpieces : ∀ piece ∈ pieces, piece ≠ [])
    {body : Bytes × List ChunkedCoding.Field} (hpart : part <+: ChunkedCoding.chunks pieces) :
    originBody .chunked part ≠ some (body, rest) := by
  intro h
  have hwhole : originBody .chunked (ChunkedCoding.encode pieces []) = some ((pieces.flatten, []), []) := by
    have hdecode := ChunkedCoding.decode_encode hpieces (fun _ h => absurd h List.not_mem_nil) []
    rw [List.append_nil] at hdecode
    simp only [originBody, hdecode, Option.map_some]
  obtain ⟨heq, -, -⟩ := (extends_originBody .chunked).eq_of_starts hwhole
    (hpart.trans (List.prefix_append _ _)) h
  have hlength := hpart.length_le
  rw [heq, ChunkedCoding.encode, List.length_append, ChunkedCoding.trailer] at hlength
  simp at hlength

/-- What the origin took of the body of a request is read only as the whole body. -/
theorem read_body {data : Bytes} {trailers : List ChunkedCoding.Field} (hpart : part <+: run.sent)
    (h : originBody run.head.framing part = some ((data, trailers), rest)) :
    rest = [] ∧ ∃ clientTrailers clientRest fields,
      run.head.bodyOfContent run.followed = ⟨data, .ok (clientTrailers, clientRest)⟩ ∧
        (∀ name, valuesOf name fields = forwardedValues run.nominated clientTrailers name) ∧
          trailers = fields.map wireField := by
  obtain ⟨pieces, hpieces, hdata, hsent⟩ := sent_starts run.modest run.sends
  rw [run.follows] at hdata hsent
  rcases hsent with hsent | ⟨clientTrailers, clientRest, fields, hbody, hfields, hsent⟩
  · have hread := hpart.trans hsent
    have hnone (name : HeaderName) :
      valuesOf name [] = forwardedValues run.nominated none name := rfl
    unfold RequestHead.bodyOfContent
    cases hframing : run.head.framing with
    | none =>
      rw [hframing] at hdata hread h
      rw [BodyDecoder.bodyOfContent_complete rfl] at hdata
      have hnil : dataText (BodyFraming.none == .chunked) pieces = [] := List.prefix_nil.mp hdata
      rw [hnil, List.prefix_nil] at hread
      obtain ⟨heq, rfl⟩ := Prod.mk.inj (Option.some.inj h)
      obtain ⟨rfl, rfl⟩ := Prod.mk.inj heq
      exact ⟨hread, none, _, [], BodyDecoder.bodyOfContent_complete rfl, hnone, rfl⟩
    | contentLength length =>
      rw [hframing] at hdata hread h
      have hpieces' : dataText (BodyFraming.contentLength length == .chunked) pieces =
        pieces.flatten := rfl
      have hstarts := (hpieces' ▸ hread).trans hdata
      have hle := hstarts.length_le
      rw [BodyDecoder.bodyOfContent_fixed rfl] at hstarts hle ⊢
      unfold originBody at h
      simp only at h
      split at h
      · rename_i hlength
        obtain ⟨heq, rfl⟩ := Prod.mk.inj (Option.some.inj h)
        obtain ⟨rfl, rfl⟩ := Prod.mk.inj heq
        by_cases hshort : run.followed.length < length
        · rw [if_pos hshort] at hle
          exact absurd (hlength.trans hle) (Nat.not_le.mpr hshort)
        · rw [if_neg hshort] at hstarts hle ⊢
          have hsame : part = run.followed.take length := by
            refine hstarts.eq_of_length_le ?_
            rw [List.length_take]
            omega
          have hshort' : part.length ≤ length := hle.trans (by rw [List.length_take]; omega)
          refine ⟨List.drop_eq_nil_of_le hshort', none, run.followed.drop length, [], ?_, hnone, rfl⟩
          rw [List.take_of_length_le hshort', ← hsame]
      · cases h
    | chunked =>
      rw [hframing] at hread h
      exact absurd h (not_read_chunks hpieces hread)
  · obtain ⟨fields', hfields', hnames⟩ := @forwardedTrailers_eq _ run.nominated clientTrailers
      fun t ht => validateTrailers_of_body (congrArg Body.ending (ht ▸ hbody))
    obtain rfl := Option.some.inj (hfields.symm.trans hfields')
    have hwhole := (carries_encoding hpieces hfields hbody).read []
    rw [List.append_nil] at hwhole
    obtain ⟨-, heq, rfl⟩ := (extends_originBody _).eq_of_starts hwhole (hpart.trans hsent) h
    obtain ⟨rfl, rfl⟩ := Prod.mk.inj heq
    exact ⟨rfl, clientTrailers, clientRest, fields, hbody, hnames, rfl⟩

/-- **A request that is on its way is read only as the request that it is.** -/
theorem read_part (hpart : part <+: run.octets) (h : originRequest part = some (request, rest)) :
    rest = [] ∧ run.Forwards request := by
  obtain ⟨host, outbound, hhost, hread, hhead⟩ := run.read_head
  unfold originRequest at h
  split at h
  · rename_i head followed hfound
    obtain ⟨⟨⟨data, trailers⟩, rest'⟩, hbody, heq⟩ := Option.map_eq_some_iff.mp h
    obtain ⟨rfl, rfl⟩ := Prod.mk.inj heq
    rcases hhead with hok | ⟨-, herror⟩
    · -- a part of the head is no head, since a head ends where it ends
      obtain ⟨sent, rfl, hsent⟩ : ∃ sent, part = run.headOctets ++ sent ∧ sent <+: run.sent := by
        rcases List.prefix_or_prefix_of_prefix hpart (List.prefix_append run.headOctets run.sent) with
          ⟨more, hmore⟩ | ⟨sent, rfl⟩
        · have happend := headOfContent_append (Prod.ext hfound rfl) more
          have hwhole := hok []
          rw [List.append_nil, ← hmore, happend] at hwhole
          obtain ⟨-, hnil⟩ := Prod.mk.inj (Option.some.inj (Except.ok.inj (Prod.mk.inj hwhole).1))
          obtain ⟨-, rfl⟩ := List.append_eq_nil_iff.mp hnil
          exact ⟨[], by rw [← hmore, List.append_nil, List.append_nil], List.nil_prefix⟩
        · exact ⟨sent, rfl, (List.prefix_append_right_inj _).mp hpart⟩
      rw [hok] at hfound
      obtain ⟨rfl, rfl⟩ := Prod.mk.inj (Option.some.inj (Except.ok.inj hfound))
      rw [hread.framing] at hbody
      obtain ⟨hrest, hforwarded⟩ := read_body hsent hbody
      exact ⟨hrest, ⟨host, hhost, hread⟩, hforwarded⟩
    · obtain ⟨more, hmore⟩ := hpart
      have happend := headOfContent_append (Prod.ext hfound rfl) more
      rw [hmore, octets, herror] at happend
      cases (Prod.mk.inj happend).1
  · cases h

/-- A request that was sent to its end is read as such, whatever follows it, unless its head is too long. -/
theorem read_whole (run : RequestRun) (hcomplete : run.reached.writer.complete = true) :
    (∃ request, run.Forwards request ∧
      ∀ rest, originRequest (run.octets ++ rest) = some (request, rest)) ∨
    headerSectionLimit < run.headOctets.length ∧ ∀ rest, originRequest (run.octets ++ rest) = none := by
  obtain ⟨host, outbound, hhost, hread, hhead⟩ := run.read_head
  obtain ⟨trailers, fields, hending, hnames, hcarries⟩ :=
    carries_of_complete run.modest run.sends hcomplete
  rw [run.follows] at hending hcarries
  have happend (rest : Bytes) : run.octets ++ rest = run.headOctets ++ (run.sent ++ rest) :=
    List.append_assoc _ _ _
  rcases hhead with hok | ⟨hlong, herror⟩
  · have hbody : run.head.bodyOfContent run.followed =
        ⟨((BodyDecoder.new run.head.framing).bodyOfContent run.followed).data,
          .ok (trailers, run.reached.source.content)⟩ := by
      rw [← hending]
      rfl
    refine .inl ⟨⟨outbound, _, _⟩, ⟨⟨host, hhost, hread⟩, trailers, _, fields, hbody, hnames, rfl⟩,
      fun rest => ?_⟩
    rw [happend, originRequest, hok]
    simp only [hread.framing, hcarries.read rest, Option.map_some]
  · refine .inr ⟨hlong, fun rest => ?_⟩
    rw [happend, originRequest, herror]

end RequestRun

/-! ## Connections -/

/-- What a connection to an origin carries of the requests that were sent to their end. -/
def carried (runs : List RequestRun) : Bytes := (runs.map RequestRun.octets).flatten

/-- **An origin reads the requests that were forwarded, in their order, and nothing else.** A connection
carries requests that were sent to their end, and a part of one more. Every request that the origin reads
is the forwarded one at its place, and it reads all that were sent to their end when their heads are not
too long. -/
theorem origin_reads_forwarded {done : List RequestRun} {last : RequestRun} {part : Bytes}
    (hdone : ∀ run ∈ done, run.reached.writer.complete = true) (hpart : part <+: last.octets) :
    (∀ requests rest, Messages originRequest (carried done ++ part) requests rest →
      ∃ runs, runs <+: done ++ [last] ∧ List.Forall₂ RequestRun.Forwards runs requests) ∧
    ((∀ run ∈ done, run.headOctets.length ≤ headerSectionLimit) →
      ∃ requests, List.Forall₂ RequestRun.Forwards done requests ∧
        Messages originRequest (carried done ++ part) requests part) := by
  induction done with
  | nil =>
    refine ⟨fun requests rest hread => ?_, fun _ => ⟨[], .nil, .nil part⟩⟩
    cases hread with
    | nil => exact ⟨[], List.nil_prefix, .nil⟩
    | cons hfirst hlater =>
      obtain ⟨rfl, hforwards⟩ := RequestRun.read_part hpart hfirst
      cases hlater with
      | nil => exact ⟨[last], List.prefix_rfl, .cons hforwards .nil⟩
      | cons hsecond => cases originRequest_nil.symm.trans hsecond
  | cons run done ih =>
    obtain ⟨ihreads, ihall⟩ := ih fun r hr => hdone r (List.mem_cons_of_mem _ hr)
    have hsplit : carried (run :: done) ++ part = run.octets ++ (carried done ++ part) :=
      List.append_assoc _ _ _
    rw [hsplit]
    rcases run.read_whole (hdone run List.mem_cons_self) with
      ⟨request, hforwards, hwhole⟩ | ⟨hlong, hnone⟩
    · refine ⟨fun requests rest hread => ?_, fun hfits => ?_⟩
      · cases hread with
        | nil => exact ⟨[], List.nil_prefix, .nil⟩
        | cons hfirst hlater =>
          rw [hwhole] at hfirst
          obtain ⟨rfl, rfl⟩ := Prod.mk.inj (Option.some.inj hfirst)
          obtain ⟨runs, hstarts, hall⟩ := ihreads _ _ hlater
          exact ⟨run :: runs, List.cons_prefix_cons.mpr ⟨rfl, hstarts⟩, .cons hforwards hall⟩
      · obtain ⟨requests, hall, hread⟩ := ihall fun r hr => hfits r (List.mem_cons_of_mem _ hr)
        exact ⟨request :: requests, .cons hforwards hall, .cons (hwhole _) hread⟩
    · refine ⟨fun requests rest hread => ?_, fun hfits => ?_⟩
      · cases hread with
        | nil => exact ⟨[], List.nil_prefix, .nil⟩
        | cons hfirst _ => cases (hnone _).symm.trans hfirst
      · exact absurd hlong (Nat.not_lt.mpr (hfits run List.mem_cons_self))

/-- The writer of a request without a body has nothing to write. -/
theorem stepDownstream_none (nominations : List HeaderName) (source : Source UInt8) :
    (RequestWriter.new .none nominations).stepDownstream source =
      (.ok ⟨⟨.complete, .empty, 0⟩, false, .flush, none, nominations, false⟩, source) := by
  have hend : (BodyDecoder.new .none).nextFrame source = (.ok none, ⟨.complete, .empty, 0⟩, source) := by
    rw [BodyDecoder.nextFrame]
    rfl
  simp only [RequestWriter.stepDownstream, RequestWriter.new, hend]
  rfl

omit [HttpCrate] in
/-- A request without a body is forwarded. -/
theorem outboundRequest_example : let _ := HttpCrate.reference
    ∃ request : OutboundRequest, request.head.framing = .none ∧ request.head.method = ascii "GET" ∧
      request.head.version = .http11 ∧ request.headOctets.length ≤ headerSectionLimit := by
  let _ := HttpCrate.reference
  obtain ⟨head, d, isHead, octets, hhead, hframing, hget, hversion, hd, hoctets, hfits⟩ := accepted_example
  have hconnect : head.method ≠ Method.connect := hget ▸ by decide
  obtain ⟨nominated, -, -, -, hnominated, -⟩ := outbound_text hhead hconnect hd
  exact ⟨{ content := _, isHead, head, followed := [], destination := d, nominated, headOctets := octets
           source := ⟨[], .empty⟩, accepted := hhead, notConnect := hconnect, target := hd
           nominates := hnominated, written := hoctets, modest := Nat.zero_le _, follows := rfl },
    hframing, hget, hversion, hfits⟩

end Vhrn.Proxy
