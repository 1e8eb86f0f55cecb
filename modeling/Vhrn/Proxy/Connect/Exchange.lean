import Vhrn.Proxy.Connect.Forward
import Vhrn.Proxy.Connect.OriginStream
import Vhrn.Proxy.Connect.ResponseHalf
import Vhrn.Proxy.Server.Persistence

/-!
# Exchanges

One request and its response over an origin connection. The request is written, the response head is
awaited and the two are interleaved in any order: the origin may answer early, send interim responses or
go away, and the client or the proxy may give the exchange up at any point. `Exchange.Step` has the steps
and `Exchange.Ends` the ways an exchange ends.
-/

namespace Vhrn.Proxy

open Relation

variable [HttpCrate]

/-! ## The state -/

/-- The outbound head is being written, with what is left of it, or the exchange is past it. -/
inductive ExchangePhase
  | head (left : Bytes)
  | body

/-- An exchange: its phase, the request half, what is read of the origin, and what the origin and the
client were sent. -/
structure Exchange where
  phase : ExchangePhase
  request : RequestHalf
  origin : Source UInt8
  sent : Bytes
  informed : Bytes

/-- The body of a response, which holds the origin connection. -/
structure StreamingOriginBody where
  half : ResponseHalf
  poolable : Bool

namespace Exchange

def start (request : OutboundRequest) (origin : Source UInt8) : Exchange :=
  { phase := .head request.headOctets, request := request.half, origin, sent := [], informed := [] }

/-- What the client is sent for an interim response. -/
def informational (version : Version) (status : StatusCode) (headers : HeaderMap) : Bytes :=
  if version = .http10 then [] else responseHead version status headers

/-- The steps of the exchange of a request. -/
inductive Step (head : RequestHead) : Exchange → Exchange → Prop
  | writeHead {exchange : Exchange} {left : Bytes} {written : ℕ} (hphase : exchange.phase = .head left)
      (hpos : 0 < written) (hle : written ≤ left.length) :
      Step head exchange { exchange with
        phase := .head (left.drop written)
        sent := exchange.sent ++ left.take written }
  | flushHead {exchange : Exchange} (hphase : exchange.phase = .head []) :
      Step head exchange { exchange with phase := .body }
  | awaits {exchange : Exchange} {origin : Source UInt8} (hphase : exchange.phase = .body)
      (hread : HeadReads exchange.origin origin) : Step head exchange { exchange with origin }
  | interim {exchange : Exchange} {response : OriginResponseHead} {origin : Source UInt8}
      {headers : HeaderMap} {nominations : List HeaderName} (hphase : exchange.phase = .body)
      (hread : readResponseHead head.method exchange.origin = (.ok response, origin))
      (hforward : forwardResponseHead head.version response = some (headers, nominations))
      (hinterim : response.status.isInformational = true) :
      Step head exchange { exchange with
        origin
        informed := exchange.informed ++ informational head.version response.status headers }
  | downstream {exchange : Exchange} {request : RequestHalf} (hphase : exchange.phase = .body)
      (hcomplete : exchange.request.writer.complete = false)
      (hwaiting : exchange.request.writer.waitingOnUpstream = false)
      (hstep : RequestHalf.Step exchange.request request) : Step head exchange { exchange with request }
  | upstream {exchange : Exchange} {writer : RequestWriter} {pending : PendingWrite} {written : ℕ}
      (hphase : exchange.phase = .body) (hcomplete : exchange.request.writer.complete = false)
      (hpending : exchange.request.writer.pending = some pending)
      (hwritten : pending.offset + written ≤ pending.bytes.asBytes.length)
      (hstep : exchange.request.writer.stepUpstream written = .ok writer) :
      Step head exchange { exchange with
        request := ⟨writer, exchange.request.source⟩
        sent := exchange.sent ++ (pending.bytes.asBytes.drop pending.offset).take written }
  | flush {exchange : Exchange} (hphase : exchange.phase = .body)
      (hcomplete : exchange.request.writer.complete = false)
      (hpending : exchange.request.writer.pending = none)
      (hstate : exchange.request.writer.state = .flush) :
      Step head exchange { exchange with
        request := ⟨{ exchange.request.writer with complete := true }, exchange.request.source⟩ }

def failed (exchange : Exchange) (kind : ForwardErrorKind) : ForwardError :=
  { kind, requestComplete := exchange.request.writer.complete }

/-- A final response of the origin goes on with the body that follows it. -/
def forwarded (exchange : Exchange) (response : OriginResponseHead) (headers : HeaderMap)
    (nominations : List HeaderName) (origin : Source UInt8) : Forwarded StreamingOriginBody :=
  let requestComplete := exchange.request.writer.complete
  { response :=
      { status := response.status
        headers
        body :=
          { half := ⟨.new response.framing nominations, origin, none⟩
            poolable := poolable requestComplete response } }
    requestComplete }

/-- The ways an exchange ends. -/
inductive Ends (head : RequestHead) (exchange : Exchange) :
    Except ForwardError (Forwarded StreamingOriginBody) → Prop
  /-- The head cannot be written to its end. -/
  | head {left : Bytes} {kind : ForwardErrorKind} (hphase : exchange.phase = .head left)
      (hkind : kind ≠ .badRequest) :
      Ends head exchange (.error { kind, requestComplete := false })
  | cancelled (hphase : exchange.phase = .body) : Ends head exchange (.error (exchange.failed .cancelled))
  | disconnected (hphase : exchange.phase = .body)
      (hwatched : exchange.request.writer.complete = true ∨
        exchange.request.writer.waitingOnUpstream = true) :
      Ends head exchange (.error (exchange.failed .clientDisconnected))
  | downstream {kind : ForwardErrorKind} (hphase : exchange.phase = .body)
      (hcomplete : exchange.request.writer.complete = false)
      (hwaiting : exchange.request.writer.waitingOnUpstream = false)
      (hstep : (exchange.request.writer.stepDownstream exchange.request.source).1 = .error kind) :
      Ends head exchange (.error (exchange.failed kind))
  /-- The origin does not take what is written. -/
  | upstream (hphase : exchange.phase = .body) (hcomplete : exchange.request.writer.complete = false)
      (hwaiting : exchange.request.writer.waitingOnUpstream = true) :
      Ends head exchange (.error (exchange.failed .badGateway))
  | unread {error : OriginError} (hphase : exchange.phase = .body)
      (hread : (readResponseHead head.method exchange.origin).1 = .error error) :
      Ends head exchange (.error (exchange.failed .badGateway))
  /-- The response is not one that is forwarded. -/
  | refused {response : OriginResponseHead} (hphase : exchange.phase = .body)
      (hread : (readResponseHead head.method exchange.origin).1 = .ok response)
      (hforward : forwardResponseHead head.version response = none) :
      Ends head exchange (.error (exchange.failed .badGateway))
  /-- The client does not take an interim response. -/
  | notInformed {response : OriginResponseHead} {headers : HeaderMap} {nominations : List HeaderName}
      (hphase : exchange.phase = .body)
      (hread : (readResponseHead head.method exchange.origin).1 = .ok response)
      (hforward : forwardResponseHead head.version response = some (headers, nominations))
      (hinterim : response.status.isInformational = true) (hversion : head.version ≠ .http10) :
      Ends head exchange (.error (exchange.failed .clientDisconnected))
  | responded {response : OriginResponseHead} {headers : HeaderMap} {nominations : List HeaderName}
      {origin : Source UInt8} (hphase : exchange.phase = .body)
      (hread : readResponseHead head.method exchange.origin = (.ok response, origin))
      (hforward : forwardResponseHead head.version response = some (headers, nominations))
      (hfinal : response.status.isInformational = false) :
      Ends head exchange (.ok (exchange.forwarded response headers nominations origin))

/-! ## Runs -/

/-- The interim response at the start of a text and what the client is sent for it, and what follows. -/
def interimOfContent (head : RequestHead) (content : Bytes) :
    Option ((OriginResponseHead × Bytes) × Bytes) :=
  match responseHeadOfContent head.method content with
  | .ok (response, rest) =>
    if response.status.isInformational then
      (forwardResponseHead head.version response).map fun (headers, _) =>
        ((response, informational head.version response.status headers), rest)
    else none
  | .error _ => none

/-- What holds of an exchange: what the origin was sent is what a run of the request half gave it, and what
was read of the origin are interim responses that the client was told of. -/
structure Sound (request : OutboundRequest) (origin : Source UInt8) (exchange : Exchange) : Prop where
  sending : (∃ left, exchange.phase = .head left ∧ exchange.sent ++ left = request.headOctets ∧
      exchange.request = request.half) ∨
    exchange.phase = .body ∧ ∃ sent, exchange.sent = request.headOctets ++ sent ∧
      RequestHalf.Sends request.half exchange.request sent
  awaits : OriginAwaits exchange.origin
  informing : ∃ interims, exchange.informed = (interims.map Prod.snd).flatten ∧
    Messages (interimOfContent request.head) origin.content interims exchange.origin.content

variable {request : OutboundRequest} {origin : Source UInt8} {exchange exchange' : Exchange}

omit [HttpCrate] in
theorem content_of_headReads {source source' : Source UInt8} (h : HeadReads source source') :
    source'.content = source.content := by
  cases h with
  | line hread => exact Source.content_pass_more hread
  | head _ hread => exact Source.content_pass_more hread

/-- A head is awaited on a stream of which little was buffered at first. -/
theorem begun_of_awaits {source : Source UInt8} (h : OriginAwaits source) :
    ∃ begun, Modest begun ∧ begun.content = source.content ∧
      ∀ method, readResponseHead method source = readResponseHead method begun := by
  induction h with
  | @fresh source h => exact ⟨source, by rw [Modest, h]; exact Nat.zero_le _, rfl, fun _ => rfl⟩
  | read h hread ih =>
    obtain ⟨begun, hmodest, hcontent, hsame⟩ := ih
    exact ⟨begun, hmodest, hcontent.trans (content_of_headReads hread).symm,
      fun method => (readResponseHead_reads hread).symm.trans (hsame method)⟩
  | interim h hhead => exact ⟨_, h.modest hhead, rfl, fun _ => rfl⟩

/-- A head that is awaited is that of the whole stream. -/
theorem responseHead_of_read {method : Method} {source source' : Source UInt8}
    {response : OriginResponseHead} (hawaits : OriginAwaits source)
    (hread : readResponseHead method source = (.ok response, source')) :
    responseHeadOfContent method source.content = .ok (response, source'.content) ∧
      Modest source' := by
  obtain ⟨begun, hmodest, hcontent, hsame⟩ := begun_of_awaits hawaits
  obtain ⟨hhead, hleft⟩ := @readResponseHead_spec _ method begun hmodest
  rw [← hsame, hread] at hhead hleft
  rw [hcontent] at hhead
  exact ⟨hhead, hleft response rfl⟩

theorem sound_start (hawaits : OriginAwaits origin) : Sound request origin (start request origin) where
  sending := .inl ⟨_, rfl, rfl, rfl⟩
  awaits := hawaits
  informing := ⟨[], rfl, .nil _⟩

theorem Sound.body (h : Sound request origin exchange) (hphase : exchange.phase = .body) :
    ∃ sent, exchange.sent = request.headOctets ++ sent ∧
      RequestHalf.Sends request.half exchange.request sent := by
  rcases h.sending with ⟨left, hhead, -⟩ | ⟨-, hsends⟩
  · rw [hphase] at hhead
    cases hhead
  · exact hsends

theorem Sound.head (h : Sound request origin exchange) {left : Bytes}
    (hphase : exchange.phase = .head left) :
    exchange.sent ++ left = request.headOctets ∧ exchange.request = request.half := by
  rcases h.sending with ⟨left', hhead, hsent, hhalf⟩ | ⟨hbody, -⟩
  · obtain rfl := ExchangePhase.head.inj (hphase.symm.trans hhead)
    exact ⟨hsent, hhalf⟩
  · rw [hphase] at hbody
    cases hbody

/-- **Every step of an exchange keeps it sound.** -/
theorem sound_step (h : Sound request origin exchange) (hstep : Step request.head exchange exchange') :
    Sound request origin exchange' := by
  cases hstep with
  | @writeHead left written hphase hpos hle =>
    obtain ⟨hsent, hhalf⟩ := h.head hphase
    refine ⟨.inl ⟨_, rfl, ?_, hhalf⟩, h.awaits, h.informing⟩
    rw [List.append_assoc, List.take_append_drop, hsent]
  | flushHead hphase =>
    obtain ⟨hsent, hhalf⟩ := h.head hphase
    refine ⟨.inr ⟨rfl, [], ?_, ?_⟩, h.awaits, h.informing⟩
    · rw [List.append_nil, ← hsent, List.append_nil]
    · show RequestHalf.Sends request.half exchange.request []
      rw [hhalf]
      exact .start
  | awaits hphase hread =>
    obtain ⟨interims, hinformed, hmessages⟩ := h.informing
    refine ⟨.inr ⟨hphase, h.body hphase⟩, h.awaits.read hread, interims, hinformed, ?_⟩
    rw [content_of_headReads hread]
    exact hmessages
  | @interim response source headers nominations hphase hread hforward hinterim =>
    obtain ⟨interims, hinformed, hmessages⟩ := h.informing
    obtain ⟨hfound, -⟩ := responseHead_of_read h.awaits hread
    have hawaits : OriginAwaits source := by
      have hnext := h.awaits.interim (congrArg Prod.fst hread)
      rw [hread] at hnext
      exact hnext
    refine ⟨.inr ⟨hphase, h.body hphase⟩, hawaits,
      interims ++ [(response, informational request.head.version response.status headers)], ?_,
      hmessages.concat ?_⟩
    · show exchange.informed ++ _ = _
      rw [hinformed, List.map_append, List.flatten_append]
      simp
    · rw [interimOfContent, hfound]
      simp only [hinterim, if_true, hforward, Option.map_some]
  | downstream hphase hcomplete hwaiting hrequest =>
    obtain ⟨sent, hsent, hsends⟩ := h.body hphase
    exact ⟨.inr ⟨hphase, sent, hsent, hsends.downstream hwaiting hrequest⟩, h.awaits, h.informing⟩
  | upstream hphase hcomplete hpending hwritten hrequest =>
    obtain ⟨sent, hsent, hsends⟩ := h.body hphase
    refine ⟨.inr ⟨hphase, _, ?_, hsends.upstream hpending hwritten hrequest⟩, h.awaits, h.informing⟩
    rw [hsent, List.append_assoc]
  | flush hphase hcomplete hpending hstate =>
    obtain ⟨sent, hsent, hsends⟩ := h.body hphase
    exact ⟨.inr ⟨hphase, sent, hsent, hsends.flush hpending hstate⟩, h.awaits, h.informing⟩

/-- **Every exchange is sound**, in any interleaving. -/
theorem sound_run (hawaits : OriginAwaits origin)
    (hrun : ReflTransGen (Step request.head) (start request origin) exchange) :
    Sound request origin exchange := by
  induction hrun with
  | refl => exact sound_start hawaits
  | tail _ hstep ih => exact sound_step ih hstep

/-! ## The mark for the pool -/

/-- A head at the start of a text is one that the parser accepts. -/
theorem accepted_of_content {method : Method} {content rest : Bytes} {response : OriginResponseHead}
    (h : responseHeadOfContent method content = .ok (response, rest)) : response.Accepted method := by
  unfold responseHeadOfContent at h
  split at h
  · cases h
  · split at h
    · cases h
    · simp only at h
      split at h
      · cases h
      · rename_i hparse
        obtain ⟨rfl, -⟩ := Prod.mk.inj (Except.ok.inj h)
        exact ⟨_, _, hparse⟩

/-- What the client was told of are accepted heads that are interim and go on. -/
theorem interims_of_messages {head : RequestHead} {content rest : Bytes}
    {interims : List (OriginResponseHead × Bytes)}
    (h : Messages (interimOfContent head) content interims rest) :
    ∀ response ∈ interims.map Prod.fst, response.Accepted head.method ∧
      response.status.isInformational = true ∧
        (forwardResponseHead head.version response).isSome = true := by
  induction h with
  | nil => exact fun _ hmem => absurd hmem List.not_mem_nil
  | @cons content rest last message interims hfound _ ih =>
    unfold interimOfContent at hfound
    split at hfound
    · rename_i response rest hhead
      split at hfound
      · rename_i hinterim
        obtain ⟨⟨headers, nominations⟩, hforward, hmessage⟩ := Option.map_eq_some_iff.mp hfound
        obtain ⟨rfl, -⟩ := Prod.mk.inj hmessage
        intro response' hmem
        rcases List.mem_cons.mp hmem with rfl | hmem
        · exact ⟨accepted_of_content hhead, hinterim, by rw [hforward]; rfl⟩
        · exact ih response' hmem
      · cases hfound
    · cases hfound

/-- **The mark of the body is that of the heads that were read**: those of the interim responses, and the
final one. -/
theorem poolable_of_run (hawaits : OriginAwaits origin)
    (hrun : ReflTransGen (Step request.head) (start request origin) exchange)
    {forwarded : Forwarded StreamingOriginBody} (hends : Ends request.head exchange (.ok forwarded)) :
    ∃ interims final rest,
      Messages (interimOfContent request.head) origin.content interims exchange.origin.content ∧
      responseHeadOfContent request.head.method exchange.origin.content = .ok (final, rest) ∧
      (∀ response ∈ interims.map Prod.fst ++ [final], response.Accepted request.head.method) ∧
      forwarded.response.body.poolable = bodyPoolable request.head.version forwarded.requestComplete
        (interims.map Prod.fst ++ [final]) := by
  have hsound := sound_run hawaits hrun
  obtain ⟨interims, -, hmessages⟩ := hsound.informing
  have hinterims := interims_of_messages hmessages
  cases hends with
  | @responded response headers nominations source hphase hread hforward hfinal =>
    obtain ⟨hfound, -⟩ := responseHead_of_read hsound.awaits hread
    refine ⟨interims, response, _, hmessages, hfound, fun response' hmem => ?_, ?_⟩
    · rcases List.mem_append.mp hmem with hmem | hmem
      · exact (hinterims response' hmem).1
      · rw [List.mem_singleton.mp hmem]
        exact accepted_of_content hfound
    · rw [bodyPoolable_append _ fun response' hmem => (hinterims response' hmem).2, bodyPoolable,
        if_neg (by simp [hforward]), if_neg (by simp [hfinal])]
      rfl

end Exchange

end Vhrn.Proxy
