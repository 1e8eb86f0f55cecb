import Vhrn.Foundations.HttpReference
import Vhrn.Proxy.Connect.Exchange
import Vhrn.Proxy.Connect.ResponseFrames

/-!
# Origin connections

The life of a connection to an origin: one exchange after another, each on the connection that the one
before gave back to the pool. Over all exchanges and all their interleavings the connection stays in step.
The origin reads the requests that were forwarded and no others (`origin_connection_requests`), and the
response that is delivered for a request is what the origin sent for it, in the place of that request
(`origin_connection_responses`).
-/

namespace Vhrn.Proxy

open Relation

variable [HttpCrate]

/-! ## Answers -/

/-- What an origin sends for a request: interim responses, each with what the client is told of it, and a
final response. -/
structure Answer where
  interims : List (OriginResponseHead × Bytes)
  head : OriginResponseHead
  data : Bytes
  trailers : Option HeaderMap

/-- The answer to a request at the start of a text, and what follows it. -/
def Answers (request : RequestHead) (content : Bytes) (answer : Answer) (rest : Bytes) : Prop :=
  ∃ before followed nominations,
    Messages (Exchange.interimOfContent request) content answer.interims before ∧
      responseHeadOfContent request.method before = .ok (answer.head, followed) ∧
        answer.head.status.isInformational = false ∧
          connectionNominations answer.head.headers = some nominations ∧
            (OriginDecoder.new answer.head.framing nominations).bodyOfContent followed =
              ⟨answer.data, .ok (answer.trailers, rest)⟩

/-- A final response is no interim one. -/
theorem interimOfContent_final {request : RequestHead} {content rest : Bytes}
    {response : OriginResponseHead}
    (h : responseHeadOfContent request.method content = .ok (response, rest))
    (hfinal : response.status.isInformational = false) :
    Exchange.interimOfContent request content = none := by
  rw [Exchange.interimOfContent, h]
  simp only [hfinal, Bool.false_eq_true, if_false]

/-- **A text has at most one answer to a request.** -/
theorem determined_answers : Determined Answers := by
  intro request content answer answer' rest rest' h h'
  obtain ⟨before, followed, nominations, hinterims, hhead, hfinal, hnominations, hbody⟩ := h
  obtain ⟨before', followed', nominations', hinterims', hhead', hfinal', hnominations', hbody'⟩ := h'
  obtain ⟨interims, head, data, trailers⟩ := answer
  obtain ⟨interims', head', data', trailers'⟩ := answer'
  simp only at *
  have hnone {text last : Bytes} {later : List (OriginResponseHead × Bytes)}
      (hlater : Messages (Exchange.interimOfContent request) text later last)
      (hend : Exchange.interimOfContent request text = none) : later = [] := by
    cases hlater with
    | nil => rfl
    | cons hparse => cases hend.symm.trans hparse
  have hsame : interims = interims' ∧ before = before' := by
    rcases hinterims.continues hinterims' with ⟨later, rfl, hlater⟩ | ⟨later, rfl, hlater⟩
    · obtain rfl := hnone hlater (interimOfContent_final hhead hfinal)
      exact ⟨(List.append_nil _).symm, hlater.eq_of_nil⟩
    · obtain rfl := hnone hlater (interimOfContent_final hhead' hfinal')
      exact ⟨List.append_nil _, hlater.eq_of_nil.symm⟩
  obtain ⟨rfl, rfl⟩ := hsame
  obtain ⟨rfl, rfl⟩ := Prod.mk.inj (Except.ok.inj (hhead.symm.trans hhead'))
  obtain rfl := Option.some.inj (hnominations.symm.trans hnominations')
  obtain ⟨rfl, hending⟩ := OriginBody.mk.inj (hbody.symm.trans hbody')
  obtain ⟨rfl, rfl⟩ := Prod.mk.inj (Except.ok.inj hending)
  exact ⟨rfl, rfl⟩

/-! ## Idle connections -/

/-- What became of an exchange that left its connection idle: the request, what the client was told
before the response, the response, and the frames of its body. -/
structure ServedExchange where
  request : OutboundRequest
  informed : Bytes
  response : OriginResponse StreamingOriginBody
  frames : List BodyFrame

/-- A connection that is new, or that an exchange gave back to the pool after the end of its response; with
the exchanges it served, what the origin was sent, and what is read of it. -/
inductive IdleRun (incoming : Feed UInt8) : List ServedExchange → Bytes → Source UInt8 → Prop
  | opened : IdleRun incoming [] [] ⟨[], incoming⟩
  | exchange {served : List ServedExchange} {sent : Bytes} {source source' : Source UInt8}
      {request : OutboundRequest} {exchange : Exchange} {forwarded : Forwarded StreamingOriginBody}
      {half : ResponseHalf} {frames : List BodyFrame} {decoder : OriginDecoder}
      (h : IdleRun incoming served sent source)
      (hrun : ReflTransGen (Exchange.Step request.head) (.start request source) exchange)
      (hends : exchange.Ends request.head (.ok forwarded))
      (hframes : forwarded.response.body.half.Yields half frames) (hwritten : half.frame = none)
      (hend : half.decoder.nextFrame half.source = (.ok none, decoder, source'))
      (hpoolable : forwarded.response.body.poolable = true)
      (hreusable : source'.buffered.isEmpty = true) :
      IdleRun incoming
        (served ++ [{ request, informed := exchange.informed, response := forwarded.response, frames }])
        (sent ++ exchange.sent) source'

/-- What the client got is the answer. -/
def ServedExchange.Delivers (served : ServedExchange) (answer : Answer) : Prop :=
  served.informed = (answer.interims.map Prod.snd).flatten ∧
    served.response.status = answer.head.status ∧
    (∃ nominations, forwardResponseHead served.request.head.version answer.head =
      some (served.response.headers, nominations)) ∧
    ∃ pieces : List Bytes, (∀ piece ∈ pieces, piece ≠ []) ∧ answer.data = pieces.flatten ∧
      served.frames = pieces.map .data ++ answer.trailers.toList.map .trailers

/-! ## One exchange -/

section

variable {request : OutboundRequest} {origin : Source UInt8} {exchange : Exchange}
  {forwarded : Forwarded StreamingOriginBody}

/-- The exchanges that end with a response. -/
theorem responded_of_ends (h : exchange.Ends request.head (.ok forwarded)) :
    ∃ response headers nominations source, exchange.phase = .body ∧
      readResponseHead request.head.method exchange.origin = (.ok response, source) ∧
      forwardResponseHead request.head.version response = some (headers, nominations) ∧
      response.status.isInformational = false ∧
        forwarded = exchange.forwarded response headers nominations source := by
  cases h with
  | responded hphase hread hforward hfinal => exact ⟨_, _, _, _, hphase, hread, hforward, hfinal, rfl⟩

/-- **An exchange that leaves its connection idle** was sent to its end, and what the client got for it is
the answer of the origin, up to where the connection stands. -/
theorem exchange_served {half : ResponseHalf} {frames : List BodyFrame} {decoder : OriginDecoder}
    {source : Source UInt8} (hawaits : OriginAwaits origin)
    (hrun : ReflTransGen (Exchange.Step request.head) (.start request origin) exchange)
    (hends : exchange.Ends request.head (.ok forwarded))
    (hframes : forwarded.response.body.half.Yields half frames) (hwritten : half.frame = none)
    (hend : half.decoder.nextFrame half.source = (.ok none, decoder, source))
    (hpoolable : forwarded.response.body.poolable = true) :
    (∃ run : RequestRun, run.toOutboundRequest = request ∧ run.reached.writer.complete = true ∧
      exchange.sent = run.octets) ∧
    ∃ answer, ServedExchange.Delivers
        { request, informed := exchange.informed, response := forwarded.response, frames } answer ∧
      Answers request.head origin.content answer source.content ∧
      answer.head.close = false ∧ answer.head.framing ≠ .closeDelimited := by
  have hsound := Exchange.sound_run hawaits hrun
  obtain ⟨response, headers, nominations, source', hphase, hread, hforward, hfinal, rfl⟩ :=
    responded_of_ends hends
  obtain ⟨hhead, hmodest⟩ := Exchange.responseHead_of_read hsound.awaits hread
  have hkept : poolable exchange.request.writer.complete response = true := hpoolable
  rw [poolable, Bool.and_eq_true, Bool.and_eq_true, Bool.not_eq_true', bne_iff_ne] at hkept
  obtain ⟨⟨hcomplete, hclose⟩, hdelimited⟩ := hkept
  constructor
  · obtain ⟨sent, hsent, hsends⟩ := hsound.body hphase
    exact ⟨{ request with reached := exchange.request, sent, sends := hsends }, rfl, hcomplete, hsent⟩
  · obtain ⟨interims, hinformed, hmessages⟩ := hsound.informing
    have hdecoded := ResponseHalf.frames_run hmodest hframes
    obtain ⟨decoder', source'', frame⟩ := half
    obtain rfl : frame = none := hwritten
    obtain ⟨pieces, trailers, hpieces, hyielded, -, hbody⟩ := ResponseHalf.decoded_end hdecoded hend
    exact ⟨⟨interims, response, pieces.flatten, trailers⟩,
      ⟨hinformed, rfl, ⟨nominations, hforward⟩, pieces, hpieces, rfl, hyielded⟩,
      ⟨_, _, nominations, hmessages, hhead, hfinal, (forwardResponseHead_eq_some hforward).2.1, hbody⟩,
      hclose, hdelimited⟩

end

/-! ## All exchanges -/

section

variable {incoming incoming' : Feed UInt8} {served served' : List ServedExchange} {sent sent' : Bytes}
  {source source' : Source UInt8}

theorem IdleRun.buffered (h : IdleRun incoming served sent source) : source.buffered = [] := by
  cases h with
  | opened => rfl
  | exchange _ _ _ _ _ _ _ hreusable => exact List.isEmpty_iff.mp hreusable

/-- What an idle connection has carried: whole requests, and the answers to them. -/
structure Carried (incoming : Feed UInt8) (served : List ServedExchange) (sent : Bytes)
    (source : Source UInt8) : Prop where
  requests : ∃ runs, runs.map RequestRun.toOutboundRequest = served.map ServedExchange.request ∧
    (∀ run ∈ runs, run.reached.writer.complete = true) ∧ sent = carried runs
  answers : ∃ answers, List.Forall₂ ServedExchange.Delivers served answers ∧
    Replies Answers incoming.content
      ((served.map (·.request.head)).zip answers) source.content ∧
    ∀ answer ∈ answers, answer.head.close = false ∧ answer.head.framing ≠ .closeDelimited

/-- **Every exchange adds one request and its answer.** -/
theorem carried_idle (h : IdleRun incoming served sent source) : Carried incoming served sent source := by
  induction h with
  | opened =>
    exact ⟨⟨[], rfl, fun _ h => absurd h List.not_mem_nil, rfl⟩,
      ⟨[], .nil, .nil, fun _ h => absurd h List.not_mem_nil⟩⟩
  | @exchange served sent source source' request exchange forwarded half frames decoder hidle hrun hends
      hframes hwritten hend hpoolable hreusable ih =>
    obtain ⟨⟨runs, hruns, hcomplete, hsent⟩, answers, hdelivers, hreplies, hkept⟩ := ih
    obtain ⟨⟨run, hrequest, hdone, hoctets⟩, answer, hdelivered, hanswer, hclose, hdelimited⟩ :=
      exchange_served (.fresh hidle.buffered) hrun hends hframes hwritten hend hpoolable
    have hlength := hdelivers.length_eq
    refine ⟨⟨runs ++ [run], ?_, ?_, ?_⟩, answers ++ [answer], ?_, ?_, ?_⟩
    · simp [hruns, hrequest]
    · exact fun r hr => (List.mem_append.mp hr).elim (hcomplete r) fun h =>
        List.mem_singleton.mp h ▸ hdone
    · rw [hsent, hoctets]
      simp [carried]
    · exact List.rel_append hdelivers (.cons hdelivered .nil)
    · rw [List.map_append, List.zip_append (by simpa using hlength)]
      exact hreplies.concat hanswer
    · exact fun a ha => (List.mem_append.mp ha).elim (hkept a) fun h =>
        List.mem_singleton.mp h ▸ ⟨hclose, hdelimited⟩

/-- **An origin reads the requests that were forwarded to it, in their order, and nothing else.** In every
run of a connection, whatever exchange is under way on it, each request that the origin reads is the
forwarded one at its place. -/
theorem origin_connection_requests {request : OutboundRequest} {exchange : Exchange}
    {requests : List OriginRequest} {rest : Bytes} (hidle : IdleRun incoming served sent source)
    (hrun : ReflTransGen (Exchange.Step request.head) (.start request source) exchange)
    (hread : Messages originRequest (sent ++ exchange.sent) requests rest) :
    ∃ runs, runs.map RequestRun.toOutboundRequest <+: served.map ServedExchange.request ++ [request] ∧
      List.Forall₂ RequestRun.Forwards runs requests := by
  obtain ⟨⟨runs, hruns, hcomplete, hsent⟩, -⟩ := carried_idle hidle
  have hsound := Exchange.sound_run (.fresh hidle.buffered) hrun
  obtain ⟨last, hlast, hpart⟩ : ∃ last : RequestRun, last.toOutboundRequest = request ∧
      exchange.sent <+: last.octets := by
    rcases hsound.sending with ⟨left, -, hwhole, -⟩ | ⟨-, sentBody, hwhole, hsends⟩
    · exact ⟨{ request with reached := request.half, sent := [], sends := .start }, rfl,
        left, by rw [hwhole, RequestRun.octets, List.append_nil]⟩
    · exact ⟨{ request with reached := exchange.request, sent := sentBody, sends := hsends }, rfl,
        by rw [hwhole]; exact List.prefix_rfl⟩
  rw [hsent] at hread
  obtain ⟨read, hstarts, hforwards⟩ := (origin_reads_forwarded hcomplete hpart).1 requests rest hread
  refine ⟨read, ?_, hforwards⟩
  have hmap := hstarts.map RequestRun.toOutboundRequest
  rw [List.map_append, hruns, List.map_singleton, hlast] at hmap
  exact hmap

/-- **Responses stay in step with requests.** In every run of a connection, what the client of each
exchange gets is the answer that the origin's stream holds at the place of its request; the connection
stands right after the last of them. The answers are determined by the stream and the requests: no
interleaving, and no way in which the stream arrives in pieces, changes them. -/
theorem origin_connection_responses (h : IdleRun incoming served sent source) :
    ∃ answers, List.Forall₂ ServedExchange.Delivers served answers ∧
      Replies Answers incoming.content
        ((served.map (·.request.head)).zip answers) source.content ∧
      ∀ incoming' served' sent' source', IdleRun incoming' served' sent' source' →
        incoming'.content = incoming.content →
        served'.map (·.request.head) = served.map (·.request.head) →
          List.Forall₂ ServedExchange.Delivers served' answers ∧ source'.content = source.content := by
  obtain ⟨-, answers, hdelivers, hreplies, -⟩ := carried_idle h
  refine ⟨answers, hdelivers, hreplies, fun incoming' served' sent' source' h' hcontent hheads => ?_⟩
  obtain ⟨-, answers', hdelivers', hreplies', -⟩ := carried_idle h'
  have hlength : answers.length = answers'.length := by
    have hserved := congrArg List.length hheads
    rw [List.length_map, List.length_map] at hserved
    rw [← hdelivers.length_eq, ← hdelivers'.length_eq, hserved]
  have hfst {xs : List ServedExchange} {ys : List Answer} (hxs : List.Forall₂ ServedExchange.Delivers xs ys) :
      ((xs.map (·.request.head)).zip ys).map Prod.fst = xs.map (·.request.head) :=
    List.map_fst_zip (by rw [List.length_map, hxs.length_eq])
  have hsnd {xs : List ServedExchange} {ys : List Answer} (hxs : List.Forall₂ ServedExchange.Delivers xs ys) :
      ((xs.map (·.request.head)).zip ys).map Prod.snd = ys :=
    List.map_snd_zip (by rw [List.length_map, hxs.length_eq])
  rw [hcontent] at hreplies'
  have hrequests : ((served'.map (·.request.head)).zip answers').map Prod.fst =
      ((served.map (·.request.head)).zip answers).map Prod.fst := by
    rw [hfst hdelivers', hfst hdelivers, hheads]
  obtain ⟨hsame, hrest⟩ := hreplies'.unique determined_answers hreplies hrequests
  have hanswers := congrArg (List.map Prod.snd) hsame
  rw [hsnd hdelivers', hsnd hdelivers] at hanswers
  exact ⟨hanswers ▸ hdelivers', hrest⟩

end

theorem OutboundRequest.headOctets_pos (request : OutboundRequest) : 0 < request.headOctets.length := by
  obtain ⟨headers, -, hoctets⟩ := Option.map_eq_some_iff.mp request.written
  rw [← hoctets]
  simp [crlf]

/-- A request without a body is sent in four steps. -/
theorem exchange_none {request : OutboundRequest} (hframing : request.head.framing = .none)
    (origin : Source UInt8) : ∃ exchange : Exchange, exchange.phase = .body ∧ exchange.origin = origin ∧
      exchange.request.writer.complete = true ∧
        ReflTransGen (Exchange.Step request.head) (.start request origin) exchange := by
  have hwritten : Exchange.Step request.head (.start request origin)
      { phase := .head [], request := request.half, origin, sent := request.headOctets, informed := [] } := by
    have hstep := @Exchange.Step.writeHead _ request.head (.start request origin) request.headOctets
      request.headOctets.length rfl request.headOctets_pos le_rfl
    rw [List.drop_length, List.take_length] at hstep
    exact hstep
  have hstep := stepDownstream_none request.nominated request.source
  rw [← hframing] at hstep
  have hrun := (((ReflTransGen.single hwritten).tail (.flushHead rfl)).tail
    (.downstream rfl rfl rfl (.downstream rfl hstep))).tail (.flush rfl rfl rfl rfl)
  exact ⟨_, rfl, rfl, rfl, hrun⟩

/-! ## A connection that serves two requests -/

/-- `HTTP/1.1 200 OK` with two octets of data. -/
def okAnswer : Bytes :=
  ascii "HTTP/1.1 200 OK" ++ crlf ++ ascii "Content-Length: 2" ++ crlf ++ crlf ++ [97, 98]

theorem nextFrame_ok (nominations : List HeaderName) (incoming : Feed UInt8) :
    ∃ decoder decoder' : OriginDecoder,
      (OriginDecoder.new (.contentLength 2) nominations).nextFrame ⟨[97, 98], incoming⟩ =
          (.ok (some (.data [97, 98])), decoder, ⟨[], incoming⟩) ∧
        decoder.nextFrame ⟨[], incoming⟩ = (.ok none, decoder', ⟨[], incoming⟩) := by
  refine ⟨⟨.fixed 0, nominations⟩, ⟨.complete, nominations⟩, ?_, ?_⟩
  · rw [OriginDecoder.nextFrame]
    rfl
  · have hcomplete : OriginDecoder.nextFrame ⟨.complete, nominations⟩ ⟨[], incoming⟩ =
        (.ok none, ⟨.complete, nominations⟩, ⟨[], incoming⟩) := OriginDecoder.nextFrame_complete rfl
    rw [OriginDecoder.nextFrame]
    exact hcomplete

omit [HttpCrate] in
theorem readResponseHead_ok : let _ := HttpCrate.reference
    ∃ (response : OriginResponseHead) (headers : HeaderMap) (nominations : List HeaderName),
      response.framing = .contentLength 2 ∧ response.close = false ∧
        response.status.isInformational = false ∧
          forwardResponseHead .http11 response = some (headers, nominations) ∧
            ∀ incoming, readResponseHead (ascii "GET") ⟨okAnswer, incoming⟩ =
              (.ok response, ⟨[97, 98], incoming⟩) := by
  let _ := HttpCrate.reference
  have heval : (parseOriginResponseHead ((okAnswer.take 38).take 17) ((okAnswer.take 38).drop 17)
      (ascii "GET")).toOption.any (fun response => response.framing == .contentLength 2 &&
        !response.close && !response.status.isInformational &&
          (forwardResponseHead .http11 response).isSome) = true := by
    decide +kernel
  obtain ⟨response, hfound, hplain⟩ := (Option.any_eq_true _ _).mp heval
  simp only [Bool.and_eq_true, Bool.not_eq_true', beq_iff_eq] at hplain
  obtain ⟨⟨⟨hframing, hclose⟩, hfinal⟩, hsome⟩ := hplain
  obtain ⟨⟨headers, nominations⟩, hforward⟩ := Option.isSome_iff_exists.mp hsome
  refine ⟨response, headers, nominations, hframing, hclose, hfinal, hforward, fun incoming => ?_⟩
  have hline : (originLineSearch .invalid).scan requestLineLimit okAnswer = some (.ok 17) := rfl
  have hhead : (originHeadSearch 17).scan (17 + headerSectionLimit) okAnswer = some (.ok 38) := rfl
  have hparse : parseOriginResponseHead ((okAnswer.take 38).take 17) ((okAnswer.take 38).drop 17)
      (ascii "GET") = .ok response := toOption_eq_some hfound
  have hrest : okAnswer.drop 38 = [97, 98] := by decide +kernel
  rw [@readResponseHead_buffered _ _ ⟨okAnswer, incoming⟩ _ _ _ hline hhead hparse, Source.consume, hrest]

omit [HttpCrate] in
/-- A request without a body is answered by what arrives next. -/
theorem idle_ok : let _ := HttpCrate.reference
    ∀ (request : OutboundRequest) (incoming : Feed UInt8) (served : List ServedExchange) (sent : Bytes)
      (pieces : List Bytes) (h : ∀ piece ∈ okAnswer :: pieces, piece ≠ []),
        request.head.framing = .none → request.head.method = ascii "GET" → request.head.version = .http11 →
          IdleRun incoming served sent ⟨[], ⟨okAnswer :: pieces, h⟩⟩ →
            ∃ exchange : ServedExchange, exchange.request = request ∧ exchange.frames = [.data [97, 98]] ∧
              ∃ sent' h', IdleRun incoming (served ++ [exchange]) sent' ⟨[], ⟨pieces, h'⟩⟩ := by
  let _ := HttpCrate.reference
  intro _ request incoming served sent pieces h hframing hget hversion hidle
  obtain ⟨response, headers, nominations, hlength, hclose, hfinal, hforward, hread⟩ := readResponseHead_ok
  obtain ⟨exchange, hphase, horigin, hcomplete, hrun⟩ :=
    exchange_none hframing ⟨[], ⟨okAnswer :: pieces, h⟩⟩
  have h' : ∀ piece ∈ pieces, piece ≠ [] := fun piece hmem => h piece (List.mem_cons_of_mem _ hmem)
  have hreads : HeadReads exchange.origin ⟨okAnswer, ⟨pieces, h'⟩⟩ := by
    have hnone : (originLineSearch .invalid).scan requestLineLimit [] = none := rfl
    have hfits : okAnswer.length ≤ readRoom requestLineLimit 0 := by decide +kernel
    have hsome : okAnswer.isEmpty = false := rfl
    rw [horigin]
    refine .line ?_
    simp only [Source.pass, hnone, List.length_nil, Feed.read, dif_pos hfits, hsome,
      Bool.false_eq_true, if_false, List.nil_append]
    exact if_neg (by decide)
  obtain ⟨decoder, decoder', hdata, hend⟩ := nextFrame_ok nominations ⟨pieces, h'⟩
  have hrun' := hrun.tail (.awaits hphase hreads)
  rw [← hget] at hread
  rw [← hversion] at hforward
  have hends := @Exchange.Ends.responded _ request.head
    { exchange with origin := ⟨okAnswer, ⟨pieces, h'⟩⟩ } response headers nominations _ hphase
    (hread ⟨pieces, h'⟩) hforward hfinal
  have hframe : (OriginDecoder.new response.framing nominations).nextFrame ⟨[97, 98], ⟨pieces, h'⟩⟩ =
      (.ok (some (.data [97, 98])), decoder, ⟨[], ⟨pieces, h'⟩⟩) := by rw [hlength, hdata]
  have hpoolable : poolable exchange.request.writer.complete response = true := by
    rw [hcomplete, poolable, hclose, hlength]
    rfl
  exact ⟨_, rfl, rfl, _, h', .exchange hidle hrun' hends (.quiet (.frame .start hframe) .written rfl) rfl
    hend hpoolable rfl⟩

/-- A new connection on which two answers arrive, each at once. -/
def okFeed : Feed UInt8 := ⟨[okAnswer, okAnswer], by simp [okAnswer]⟩

/-- The first octet of a request that is on its way. -/
theorem exchange_begun (request : OutboundRequest) (origin : Source UInt8) : ∃ exchange : Exchange,
    exchange.sent ≠ [] ∧ exchange.sent <+: request.headOctets ∧
      ReflTransGen (Exchange.Step request.head) (.start request origin) exchange := by
  have hstep := @Exchange.Step.writeHead _ request.head (.start request origin) request.headOctets 1 rfl
    Nat.one_pos request.headOctets_pos
  have hpos := request.headOctets_pos
  refine ⟨_, List.ne_nil_of_length_pos ?_, List.take_prefix 1 _, .single hstep⟩
  rw [List.length_append, List.length_take]
  omega

omit [HttpCrate] in
/-- The origin has read the request that was served, and has a part of a second one. -/
theorem origin_connection_requests_two : ∃ (_ : HttpCrate) (request : OutboundRequest)
    (served : List ServedExchange) (sent part : Bytes) (requests : List OriginRequest) (rest : Bytes),
      served.map ServedExchange.request = [request] ∧ part ≠ [] ∧ requests.length = 1 ∧
      Messages originRequest (sent ++ part) requests rest ∧
        ∃ runs, runs.map RequestRun.toOutboundRequest <+: [request] ++ [request] ∧
          List.Forall₂ RequestRun.Forwards runs requests := by
  let _ := HttpCrate.reference
  obtain ⟨request, hframing, hget, hversion, hfits⟩ := outboundRequest_example
  obtain ⟨first, hrequest, -, sent, h', hidle⟩ := idle_ok request okFeed [] [] [okAnswer] _ hframing hget
    hversion .opened
  obtain ⟨exchange, hne, hpart, hrun⟩ := exchange_begun request ⟨[], ⟨[okAnswer], h'⟩⟩
  obtain ⟨⟨runs, hruns, hcomplete, hsent⟩, -⟩ := carried_idle hidle
  rw [List.nil_append, List.map_singleton, hrequest] at hruns
  let last : RequestRun := { request with reached := request.half, sent := [], sends := .start }
  have hlast : exchange.sent <+: last.octets := hpart.trans (List.prefix_append _ _)
  obtain ⟨requests, hforwards, hread⟩ := (origin_reads_forwarded hcomplete hlast).2 fun run hmem => by
    have hrun := List.mem_map_of_mem (f := RequestRun.toOutboundRequest) hmem
    rw [hruns, List.mem_singleton] at hrun
    rw [hrun]
    exact hfits
  rw [← hsent] at hread
  have hlength : requests.length = 1 := by
    rw [← hforwards.length_eq, ← List.length_map (f := RequestRun.toOutboundRequest), hruns]
    rfl
  have hall := origin_connection_requests hidle hrun hread
  rw [List.nil_append, List.map_singleton, hrequest] at hall
  exact ⟨_, request, [first], sent, exchange.sent, requests, _, by rw [List.map_singleton, hrequest], hne,
    hlength, hread, hall⟩

omit [HttpCrate] in
/-- Two exchanges on one connection, each with its data. -/
theorem origin_connection_responses_two : ∃ (_ : HttpCrate) (request : OutboundRequest)
    (served : List ServedExchange) (source : Source UInt8) (answers : List Answer),
      served.map ServedExchange.request = [request, request] ∧
      served.map ServedExchange.frames = [[.data [97, 98]], [.data [97, 98]]] ∧
      List.Forall₂ ServedExchange.Delivers served answers ∧
        Replies Answers okFeed.content ((served.map (·.request.head)).zip answers) source.content := by
  let _ := HttpCrate.reference
  obtain ⟨request, hframing, hget, hversion, -⟩ := outboundRequest_example
  obtain ⟨first, hfirst, hdata, sent, h', hidle⟩ := idle_ok request okFeed [] [] [okAnswer] _ hframing hget
    hversion .opened
  obtain ⟨second, hsecond, hdata', sent', h'', hidle'⟩ := idle_ok request okFeed _ sent [] h' hframing hget
    hversion hidle
  obtain ⟨answers, hdelivers, hreplies, -⟩ := origin_connection_responses hidle'
  exact ⟨_, request, _, _, answers, by simp [hfirst, hsecond], by simp [hdata, hdata'], hdelivers, hreplies⟩

end Vhrn.Proxy
