import Vhrn.Foundations.HttpReference
import Vhrn.Proxy.Connect.BrokerProtocol
import Vhrn.Proxy.Server.Http1.Body
import Vhrn.Proxy.Server.Relay
import Vhrn.Proxy.Server.Response

/-!
# Client connections

A client connection serves one request after another until it becomes a tunnel. `Served` are the states
in which a head may be read, whatever requests were served before; in each of them little is buffered, so
what is read ahead of a tunnel is never too much for its relay. `connect_tunnel_lossless` follows the
octets after the head of a `CONNECT` request to the origin, and those of the origin to the client.
-/

namespace Vhrn.Proxy

variable [HttpCrate]

/-! ## Connections between requests -/

/-- The decoder and the stream after some turns that did not fail. -/
inductive BodyRead (decoder : BodyDecoder) (source : Source UInt8) : BodyDecoder → Source UInt8 → Prop
  | start : BodyRead decoder source decoder source
  | next {decoder' decoder'' : BodyDecoder} {source' source'' : Source UInt8}
      (h : BodyRead decoder source decoder' source')
      (hnext : (decoder'.turn source').next = some (decoder'', source'')) :
      BodyRead decoder source decoder'' source''

/-- The connection of a client that sends the given octets, after some of its requests. -/
inductive Served (stream : Bytes) : Http1Connection → Prop
  | new {incoming : Feed UInt8} (h : incoming.content = stream) : Served stream (.new incoming)
  | started {connection : Http1Connection} (h : Served stream connection) :
      Served stream connection.waitForHeadStart.2
  | head {connection : Http1Connection} {head : RequestHead} (h : Served stream connection)
      (hread : connection.readHead.1 = .ok (some head)) : Served stream connection.readHead.2
  | body {connection : Http1Connection} {head : RequestHead} {decoder : BodyDecoder}
      {source : Source UInt8} (h : Served stream connection)
      (hread : connection.readHead.1 = .ok (some head))
      (hbody : BodyRead (.new head.framing) connection.readHead.2.source decoder source) :
      Served stream { connection.readHead.2 with source }

variable {stream : Bytes} {connection : Http1Connection} {decoder decoder' : BodyDecoder}
  {source source' : Source UInt8} {head : RequestHead}

theorem BodyRead.ready (h : BodyRead decoder source decoder' source') (hready : decoder.Ready source) :
    decoder'.Ready source' ∧ source'.content <:+ source.content := by
  induction h with
  | start => exact ⟨hready, List.suffix_rfl⟩
  | next _ hnext ih =>
    exact ⟨BodyDecoder.ready_next ih.1 hnext, (BodyDecoder.suffix_next hnext).trans ih.2⟩

/-- What follows a head starts after some octets of the stream. -/
theorem exists_headLength {content rest : Bytes} {isHead : Bool}
    (h : headOfContent content = (.ok (some (head, rest)), isHead)) :
    ∃ length, rest = content.drop length := by
  unfold headOfContent at h
  split at h
  · have hfst := (Prod.mk.inj h).1
    split at hfst <;> cases hfst
  · simp only at h
    split at h
    · cases h
    · split at h
      · cases h
      · obtain ⟨-, rfl⟩ := Prod.mk.inj (Option.some.inj (Except.ok.inj (Prod.mk.inj h).1))
        exact ⟨_, rfl⟩

/-- A head that is read leaves an end of the stream. -/
theorem readHead_rest (h : Modest connection.source)
    (hread : connection.readHead.1 = .ok (some head)) :
    headOfContent connection.source.content =
        (.ok (some (head, connection.readHead.2.source.content)), connection.readHead.2.requestIsHead) ∧
      Modest connection.readHead.2.source ∧
      connection.readHead.2.source.content <:+ connection.source.content := by
  obtain ⟨hcontent, hmodest⟩ := readHead_spec h
  rw [hread] at hcontent
  refine ⟨hcontent, hmodest head hread, ?_⟩
  obtain ⟨length, hlength⟩ := exists_headLength hcontent
  rw [hlength]
  exact List.drop_suffix length _

/-- **Little is buffered between requests**, and what is still to be read is an end of the stream. -/
theorem Served.modest (h : Served stream connection) :
    Modest connection.source ∧ connection.source.content <:+ stream := by
  induction h with
  | new h =>
    refine ⟨Nat.zero_le _, ?_⟩
    rw [← h]
    exact List.suffix_rfl
  | started _ ih =>
    obtain ⟨hcontent, hmodest, -⟩ := waitForHeadStart_spec ih.1
    rw [hcontent]
    exact ⟨hmodest, ih.2⟩
  | head _ hread ih =>
    obtain ⟨-, hmodest, hsuffix⟩ := readHead_rest ih.1 hread
    exact ⟨hmodest, hsuffix.trans ih.2⟩
  | body _ hread hbody ih =>
    obtain ⟨-, hmodest, hsuffix⟩ := readHead_rest ih.1 hread
    obtain ⟨hready, hrest⟩ := hbody.ready (BodyDecoder.ready_new _ hmodest)
    exact ⟨hready.modest, (hrest.trans hsuffix).trans ih.2⟩

/-! ## Tunnels -/

/-- The origin side of a tunnel and what was read ahead of it. -/
structure Upstream where
  stream : Feed UInt8
  readAhead : Bytes

/-- A public connection as the origin side of a tunnel. -/
def Upstream.publicStream (stream : Feed UInt8) : Upstream := { stream, readAhead := [] }

/-- A connection of the broker as the origin side of a tunnel, once its answer has been read. -/
def Upstream.broker (answer : Feed UInt8) : Except BrokerError Upstream :=
  (readResponse answer).map fun opened =>
    { stream := opened.takePrefix.2.stream, readAhead := opened.takePrefix.1 }

/-- The origin side of a tunnel whose peer sends the given octets, those of the broker's answer apart. -/
inductive Upstream.Sends : Upstream → Bytes → Prop
  | publicStream (stream : Feed UInt8) : Sends (.publicStream stream) stream.content
  | broker {answer : Feed UInt8} {upstream : Upstream} (h : Upstream.broker answer = .ok upstream) :
      Sends upstream (answer.content.drop success.length)

def connectEstablished : Bytes := ascii "HTTP/1.1 200 Connection Established" ++ crlf ++ crlf

/-- What happens while a `CONNECT` request is served. -/
structure ConnectEvents where
  peerClosed : Bool
  connected : Except ProxyFailure Upstream
  shutdownRequested : Bool
  /-- The shutdown was requested before the first octet of the answer was written. -/
  drained : Bool
  /-- How many octets of the answer the first write took. -/
  accepted : ℕ

inductive ConnectOutcome
  | complete
  | answered (failure : ProxyFailure) (close : Bool)
  | tunnel (written : Bytes) (parts : TunnelParts)

/-- Writes the answer to a `CONNECT` request, unless a shutdown comes first. -/
def writeConnectEstablished (events : ConnectEvents) : Option Bytes :=
  if events.drained || events.accepted == 0 then none
  else some (connectEstablished.take events.accepted ++ connectEstablished.drop events.accepted)

/-- Serves a `CONNECT` request whose head has been read. -/
def serveConnect (head : RequestHead) (connection : Http1Connection) (events : ConnectEvents) :
    ConnectOutcome :=
  let framed := head.headers.contains .transferEncoding || head.headers.contains .contentLength ||
    head.expect
  if framed then .answered .badRequest true
  else if events.peerClosed then .complete
  else match events.connected with
    | .error error => .answered error head.close
    | .ok upstream =>
      if events.shutdownRequested then .answered .serviceUnavailable true
      else match writeConnectEstablished events with
        | none => .complete
        | some written => .tunnel written
          { downstream := connection.source.incoming
            downstreamPrefix := connection.source.buffered
            upstream := upstream.stream
            upstreamPrefix := upstream.readAhead }

variable {events : ConnectEvents} {written : Bytes} {parts : TunnelParts}

/-- What a request that becomes a tunnel has come through. -/
theorem serveConnect_tunnel (h : serveConnect head connection events = .tunnel written parts) :
    ∃ upstream, events.connected = .ok upstream ∧ written = connectEstablished ∧
      parts = { downstream := connection.source.incoming
                downstreamPrefix := connection.source.buffered
                upstream := upstream.stream
                upstreamPrefix := upstream.readAhead } := by
  unfold serveConnect at h
  simp only at h
  split at h
  · cases h
  split at h
  · cases h
  split at h
  · cases h
  · rename_i upstream hconnected
    split at h
    · cases h
    split at h
    · cases h
    · rename_i answer hanswer
      obtain ⟨rfl, rfl⟩ := ConnectOutcome.tunnel.inj h
      obtain ⟨-, hwritten⟩ := Option.ite_none_left_eq_some.mp hanswer
      rw [List.take_append_drop] at hwritten
      exact ⟨upstream, hconnected, (Option.some.inj hwritten).symm, rfl⟩

omit [HttpCrate] in
/-- What an origin side sends, and how little of it is read ahead. -/
theorem Upstream.Sends.octets {upstream : Upstream} {octets : Bytes} (h : upstream.Sends octets) :
    upstream.readAhead ++ upstream.stream.content = octets ∧ upstream.readAhead.length ≤ maxPrefixBytes := by
  cases h with
  | publicStream stream => exact ⟨rfl, Nat.zero_le _⟩
  | @broker answer _ h =>
    unfold Upstream.broker at h
    rcases readResponse_spec answer with ⟨opened, hopened, hcontent, -⟩ | ⟨hrejected, -⟩
    · rw [hopened] at h
      obtain rfl := Except.ok.inj h
      exact ⟨hcontent, (length_retained_le hopened).trans (by decide)⟩
    · rw [hrejected] at h
      cases h

omit [HttpCrate] in
/-- **The relay accepts what was read ahead of it.** -/
theorem relay_accepts {parts : TunnelParts} (hdownstream : parts.downstreamPrefix.length ≤ requestLineLimit)
    (hupstream : parts.upstreamPrefix.length ≤ maxPrefixBytes) : ∃ r, relay parts = some r := by
  have hlimit : requestLineLimit ≤ maxPrefixBytes := by decide
  refine ⟨_, if_neg ?_⟩
  omega

/-- **The tunnel of a `CONNECT` request is lossless**: whatever requests came before it, and in whatever
pieces the octets of both peers arrive. -/
theorem connect_tunnel_lossless {upstream : Upstream} {octets : Bytes}
    (hserved : Served stream connection) (hread : connection.readHead.1 = .ok (some head))
    (hconnected : events.connected = .ok upstream) (hsends : upstream.Sends octets)
    (htunnel : serveConnect head connection.readHead.2 events = .tunnel written parts) :
    ∃ followed isHead tunnel,
      headOfContent connection.source.content = (.ok (some (head, followed)), isHead) ∧
        followed <:+ stream ∧ relay parts = some tunnel ∧
          tunnel.Lossless written followed (connectEstablished ++ octets) := by
  obtain ⟨hmodest, hsuffix⟩ := hserved.modest
  obtain ⟨hcontent, hmodest', hrest⟩ := readHead_rest hmodest hread
  obtain ⟨upstream', hupstream, rfl, hparts⟩ := serveConnect_tunnel htunnel
  obtain rfl := Except.ok.inj (hconnected.symm.trans hupstream)
  obtain ⟨hoctets, hahead⟩ := hsends.octets
  have hdownstream : parts.downstreamPrefix.length ≤ requestLineLimit := by
    rw [hparts]
    exact hmodest'
  have hupstream' : parts.upstreamPrefix.length ≤ maxPrefixBytes := by
    rw [hparts]
    exact hahead
  obtain ⟨tunnel, hrelay⟩ := relay_accepts hdownstream hupstream'
  refine ⟨_, _, tunnel, hcontent, hrest.trans hsuffix, hrelay, ?_⟩
  have hlossless := relay_lossless hrelay connectEstablished
  rw [hparts] at hlossless
  rw [← hoctets]
  exact hlossless

omit [HttpCrate] in
/-- What a test of a result finds there. -/
theorem exists_of_any_join {ε α β : Type*} {r : Except ε (Option α) × β} {p : α → Bool}
    (h : r.1.toOption.join.any p = true) : ∃ a b, r = (.ok (some a), b) ∧ p a = true := by
  obtain ⟨a, ha, hp⟩ := (Option.any_eq_true _ _).mp h
  obtain ⟨x, b⟩ := r
  cases x with
  | error e => cases ha
  | ok o =>
    have ho : some o = some (some a) := Option.join_eq_some_iff.mp ha
    cases ho
    exact ⟨a, b, rfl, hp⟩

omit [HttpCrate] in
/-- A client that sends three octets with its request head, to an origin that sends two with the answer
of the broker. -/
theorem connect_tunnel_lossless_example : ∃ tunnel : Relay,
    tunnel.Lossless connectEstablished (ascii "abc") (connectEstablished ++ ascii "de") := by
  let _ := HttpCrate.reference
  let request : Bytes := ascii "CONNECT a.b:443 HTTP/1.1" ++ crlf ++ ascii "Host: a.b:443" ++ crlf ++ crlf
  let connection : Http1Connection := .new (.whole (request ++ ascii "abc"))
  let answer : Feed UInt8 := .whole (success ++ ascii "de")
  have hserved : Served (request ++ ascii "abc") connection := .new (Feed.content_whole _)
  have hcontent : connection.source.content = request ++ ascii "abc" := Feed.content_whole _
  have heval : (headOfContent (request ++ ascii "abc")).1.toOption.join.any (fun parsed =>
      !(parsed.1.headers.contains .transferEncoding || parsed.1.headers.contains .contentLength ||
        parsed.1.expect) && parsed.2 == ascii "abc") = true := by
    decide +kernel
  obtain ⟨⟨head, rest⟩, isHead, hhead, hplain⟩ := exists_of_any_join heval
  rw [Bool.and_eq_true, Bool.not_eq_true', beq_iff_eq] at hplain
  obtain ⟨hframed, rfl⟩ := hplain
  have hspec := (readHead_spec hserved.modest.1).1
  rw [hcontent, hhead] at hspec
  obtain ⟨hread, -⟩ := headRead_eq_ok (Prod.mk.inj hspec).1.symm
  rcases readResponse_spec answer with ⟨opened, hopened, -, -⟩ | ⟨-, hnot⟩
  · let upstream : Upstream :=
      { stream := opened.takePrefix.2.stream, readAhead := opened.takePrefix.1 }
    let events : ConnectEvents := ⟨false, .ok upstream, false, false, 1⟩
    have hbroker : Upstream.broker answer = .ok upstream := by
      rw [Upstream.broker, hopened]
      rfl
    have hserve : serveConnect head connection.readHead.2 events = .tunnel connectEstablished
        { downstream := connection.readHead.2.source.incoming
          downstreamPrefix := connection.readHead.2.source.buffered
          upstream := upstream.stream
          upstreamPrefix := upstream.readAhead } := by
      unfold serveConnect
      simp only [hframed]
      rfl
    obtain ⟨followed, _, tunnel, hfollowed, -, -, hlossless⟩ :=
      connect_tunnel_lossless hserved hread rfl (.broker hbroker) hserve
    rw [hcontent, hhead] at hfollowed
    have hsame := (Prod.mk.inj (Option.some.inj (Except.ok.inj (Prod.mk.inj hfollowed).1))).2
    rw [← hsame, Feed.content_whole] at hlossless
    exact ⟨tunnel, hlossless⟩
  · exact absurd (by rw [Feed.content_whole]; exact List.prefix_append _ _) hnot

end Vhrn.Proxy
