import Vhrn.Cli.Names
import Vhrn.Proxy.Connect.BrokerProtocol

/-!
# The broker protocol on the side of the host

The broker on the host reads the first line of a connection octet by octet (`readLine`), so that nothing
behind the line is taken from the relay, and parses it (`parseBrokerRequest`). It shares no code with the
proxy. `parse_frame` and `frame_of_parse` say that the two agree: the lines it accepts are the frames of
the proxy, each of them for the request it was built for.
-/

namespace Vhrn.Cli

open Proxy (connectFrame readyFrame)

/-! ## Requests -/

def brokerTokenByte (byte : UInt8) : Bool := Ascii.isDigit byte || decide (97 ≤ byte ∧ byte ≤ 102)

structure BrokerToken where
  text : Bytes
  length : text.length = 64
  bytes : text.all brokerTokenByte = true

def BrokerToken.parse (value : Bytes) : Option BrokerToken :=
  if h : value.length = 64 ∧ value.all brokerTokenByte = true then some ⟨value, h.1, h.2⟩ else none

inductive BrokerRequest
  | ready (token : BrokerToken)
  | connect (token : BrokerToken) (authority : LoopbackAuthority)

def BrokerRequest.token : BrokerRequest → BrokerToken
  | .ready token => token
  | .connect token _ => token

def maxBrokerFrameSize : ℕ := 256

def parseBrokerRequest (frame : Bytes) : Option BrokerRequest := do
  if maxBrokerFrameSize < frame.length then none
  let frame ← stripSuffix [10] frame
  if frame.contains 10 then none
  let frame ← fromUtf8 frame
  match frame.splitOn 32 with
  | [magic, verb, token] =>
    if magic = ascii "VHRN-BROKER/1" ∧ verb = ascii "READY" then
      return .ready (← BrokerToken.parse token)
    else none
  | [magic, verb, token, raw] =>
    if magic = ascii "VHRN-BROKER/1" ∧ verb = ascii "CONNECT" then
      let authority ← LoopbackAuthority.parse raw
      if authority.display ≠ raw then none
      return .connect (← BrokerToken.parse token) authority
    else none
  | _ => none

/-! ## The line of a connection -/

/-- Reads on up to the end of the line, or until a line of the given further length has none. -/
def readLineWithin : ℕ → Bytes → Feed UInt8 → Option Bytes × Feed UInt8
  | 0, _, stream => (none, stream)
  | n + 1, line, stream =>
    match stream.read 1 with
    | ([], stream) => (none, stream)
    | (byte :: _, stream) =>
      if byte = 10 then (some (line ++ [byte]), stream)
      else readLineWithin n (line ++ [byte]) stream

/-- Reads one line, octet by octet. -/
def readLine (stream : Feed UInt8) : Option Bytes × Feed UInt8 :=
  readLineWithin maxBrokerFrameSize [] stream

inductive HandshakeRequest
  | ready
  | connect (authority : LoopbackAuthority)

/-- Reads the request of a connection and checks its token. -/
def handshake (stream : Feed UInt8) (token : BrokerToken) : Option HandshakeRequest × Feed UInt8 :=
  let (line, stream) := readLine stream
  let request := do
    let request ← parseBrokerRequest (← line)
    if token.text ≠ request.token.text then none
    match request with
    | .ready _ => return .ready
    | .connect _ authority => return .connect authority
  (request, stream)

/-! ## The frames of the proxy -/

def BrokerToken.toProxy (token : BrokerToken) : Proxy.BrokerToken :=
  ⟨token.text, token.length, token.bytes⟩

/-- The frame that the proxy builds for a request. -/
def BrokerRequest.frame : BrokerRequest → Option Bytes
  | .ready token => readyFrame token.toProxy
  | .connect token authority => connectFrame token.toProxy authority.toProxy

/-- The fields of that frame. -/
def BrokerRequest.fields : BrokerRequest → List Bytes
  | .ready token => [ascii "VHRN-BROKER/1", ascii "READY", token.text]
  | .connect token authority =>
    [ascii "VHRN-BROKER/1", ascii "CONNECT", token.text, authority.display]

def BrokerRequest.text (request : BrokerRequest) : Bytes := [32].intercalate request.fields

theorem BrokerRequest.frame_eq (request : BrokerRequest) : request.frame = some (request.text ++ [10]) := by
  cases request with
  | ready token =>
    have hverb : ascii "VHRN-BROKER/1 READY " = ascii "VHRN-BROKER/1" ++ 32 :: ascii "READY" ++ [32] := rfl
    show readyFrame token.toProxy = _
    rw [Proxy.frame_ready, hverb]
    simp [text, fields, List.intercalate, BrokerToken.toProxy]
  | connect token authority =>
    have hverb : ascii "VHRN-BROKER/1 CONNECT " =
        ascii "VHRN-BROKER/1" ++ 32 :: ascii "CONNECT" ++ [32] := rfl
    show connectFrame token.toProxy authority.toProxy = _
    rw [Proxy.frame_connect, LoopbackAuthority.display_toProxy, hverb]
    simp [text, fields, List.intercalate, BrokerToken.toProxy]

theorem BrokerToken.parse_text (token : BrokerToken) : BrokerToken.parse token.text = some token :=
  dif_pos ⟨token.length, token.bytes⟩

theorem BrokerToken.text_of_parse {value : Bytes} {token : BrokerToken}
    (h : BrokerToken.parse value = some token) : token.text = value := by
  unfold BrokerToken.parse at h
  split at h
  · obtain rfl := Option.some.inj h
    rfl
  · cases h

/-- The octets of a field: ASCII, and neither a space nor a line feed. -/
def fieldByte (b : UInt8) : Bool := decide (b < 128) && b != 10 && b != 32

theorem BrokerRequest.all_fieldByte {request : BrokerRequest} {field : Bytes}
    (hfield : field ∈ request.fields) : field.all fieldByte = true := by
  have htoken (token : BrokerToken) : token.text.all fieldByte = true := by
    have h (b : UInt8) : brokerTokenByte b = true → fieldByte b = true := by
      revert b; exact forall_byte (by decide +kernel)
    exact List.all_eq_true.mpr fun b hb => h b (List.all_eq_true.mp token.bytes b hb)
  have hauthority (authority : LoopbackAuthority) : authority.display.all fieldByte = true := by
    have h (b : UInt8) : Proxy.isAuthorityByte b = true → fieldByte b = true := by
      revert b; exact forall_byte (by decide +kernel)
    rw [← authority.display_toProxy]
    exact List.all_eq_true.mpr fun b hb => h b (Proxy.LoopbackAuthority.display_byte hb)
  cases request with
  | ready token =>
    simp only [fields, List.mem_cons, List.not_mem_nil, or_false] at hfield
    rcases hfield with rfl | rfl | rfl
    · decide
    · decide
    · exact htoken token
  | connect token authority =>
    simp only [fields, List.mem_cons, List.not_mem_nil, or_false] at hfield
    rcases hfield with rfl | rfl | rfl | rfl
    · decide
    · decide
    · exact htoken token
    · exact hauthority authority

/-! ## The same requests -/

theorem BrokerRequest.splitOn_text (request : BrokerRequest) : request.text.splitOn 32 = request.fields := by
  refine List.splitOn_intercalate 32 (fun field hfield hmem => ?_) (by cases request <;> simp [fields])
  have hbyte := List.all_eq_true.mp (all_fieldByte hfield) 32 hmem
  exact absurd hbyte (by decide)

theorem BrokerRequest.text_byte {request : BrokerRequest} {b : UInt8} (hb : b ∈ request.text) :
    b < 128 ∧ b ≠ 10 := by
  rcases mem_intercalate hb with rfl | ⟨field, hfield, hb⟩
  · decide
  · have hbyte := List.all_eq_true.mp (all_fieldByte hfield) b hb
    simp only [fieldByte, Bool.and_eq_true, decide_eq_true_eq, bne_iff_ne] at hbyte
    exact hbyte.1

/-- A frame fits the bound of the host, which is that of the proxy. -/
theorem BrokerRequest.length_le (request : BrokerRequest) :
    (request.text ++ [10]).length ≤ maxBrokerFrameSize := by
  have hframe : ∃ token verb authority, Proxy.frame token verb authority = request.frame := by
    cases request with
    | ready token => exact ⟨_, _, _, rfl⟩
    | connect token authority => exact ⟨_, _, _, rfl⟩
  obtain ⟨token, verb, authority, hframe⟩ := hframe
  rw [request.frame_eq] at hframe
  unfold Proxy.frame at hframe
  obtain ⟨hle, heq⟩ := Option.ite_none_right_eq_some.mp hframe
  rw [← Option.some.inj heq]
  exact hle

/-- **The host reads from a frame the request it was built for.** -/
theorem parse_frame (request : BrokerRequest) : parseBrokerRequest (request.text ++ [10]) = some request := by
  have hascii : isAscii request.text = true :=
    List.all_eq_true.mpr fun b hb => decide_eq_true (BrokerRequest.text_byte hb).1
  have hline : request.text.contains 10 = false := by
    rw [List.contains_eq_mem, decide_eq_false_iff_not]
    exact fun h => (BrokerRequest.text_byte h).2 rfl
  unfold parseBrokerRequest
  rw [if_neg (Nat.not_lt.mpr request.length_le), stripSuffix_append]
  simp only [bind, Option.bind_some, hline, fromUtf8_of_isAscii hascii, request.splitOn_text]
  cases request with
  | ready token =>
    simp [BrokerRequest.fields, BrokerToken.parse_text]
  | connect token authority =>
    simp [BrokerRequest.fields, BrokerToken.parse_text, LoopbackAuthority.parse_display]

/-- **A line that the host accepts is the frame of the request it reads from it.** -/
theorem frame_of_parse {line : Bytes} {request : BrokerRequest}
    (h : parseBrokerRequest line = some request) : request.frame = some line := by
  unfold parseBrokerRequest at h
  simp only [bind] at h
  obtain ⟨-, h⟩ := Option.ite_none_left_eq_some.mp h
  obtain ⟨body, hbody, h⟩ := Option.bind_eq_some_iff.mp h
  obtain ⟨-, h⟩ := Option.ite_none_left_eq_some.mp h
  obtain ⟨text, htext, h⟩ := Option.bind_eq_some_iff.mp h
  rw [request.frame_eq, stripSuffix_eq_some.mp hbody]
  have hsame : text = body := Proxy.fromUtf8_eq_some htext
  have hfields : request.fields = text.splitOn 32 := by
    split at h
    · rename_i magic verb token hparts
      rw [hparts]
      obtain ⟨⟨rfl, rfl⟩, h⟩ := Option.ite_none_right_eq_some.mp h
      obtain ⟨token', htoken, h⟩ := Option.bind_eq_some_iff.mp h
      obtain rfl := Option.some.inj h
      rw [← BrokerToken.text_of_parse htoken]
      rfl
    · rename_i magic verb token raw hparts
      rw [hparts]
      obtain ⟨⟨rfl, rfl⟩, h⟩ := Option.ite_none_right_eq_some.mp h
      obtain ⟨authority, -, h⟩ := Option.bind_eq_some_iff.mp h
      obtain ⟨hraw, h⟩ := Option.ite_none_left_eq_some.mp h
      obtain ⟨token', htoken, h⟩ := Option.bind_eq_some_iff.mp h
      obtain rfl := Option.some.inj h
      rw [← BrokerToken.text_of_parse htoken, ← not_not.mp hraw]
      rfl
    · cases h
  rw [BrokerRequest.text, hfields, List.intercalate_splitOn, hsame]

/-! ## The same line -/

theorem readLineWithin_line {n : ℕ} {seen line rest : Bytes} {stream : Feed UInt8}
    (hline : (10 : UInt8) ∉ line) (hn : line.length + 1 ≤ n)
    (h : stream.content = line ++ 10 :: rest) :
    (readLineWithin n seen stream).1 = some (seen ++ line ++ [10]) ∧
      (readLineWithin n seen stream).2.content = rest := by
  induction line generalizing n seen stream with
  | nil =>
    obtain ⟨m, rfl⟩ := Nat.exists_eq_add_of_le' hn
    obtain ⟨after, hread, hafter⟩ := Feed.read_one h
    unfold readLineWithin
    rw [hread]
    simp [hafter]
  | cons b line ih =>
    obtain ⟨m, rfl⟩ := Nat.exists_eq_add_of_le' (Nat.le_of_add_left_le hn)
    obtain ⟨after, hread, hafter⟩ := Feed.read_one h
    have hb : b ≠ 10 := fun hb => hline (hb ▸ List.mem_cons_self)
    unfold readLineWithin
    rw [hread]
    simp only [if_neg hb]
    have hrest : (readLineWithin m (seen ++ [b]) after).1 = some (seen ++ [b] ++ line ++ [10]) ∧ _ :=
      ih (fun h => hline (List.mem_cons_of_mem b h)) (by rw [List.length_cons] at hn; omega) hafter
    rwa [List.append_assoc seen [b] line] at hrest

/-- **The host takes a frame and nothing behind it.** -/
theorem readLine_frame (request : BrokerRequest) {stream : Feed UInt8} {rest : Bytes}
    (h : stream.content = request.text ++ 10 :: rest) :
    (readLine stream).1 = some (request.text ++ [10]) ∧ (readLine stream).2.content = rest := by
  have hline : (10 : UInt8) ∉ request.text := fun hmem => (BrokerRequest.text_byte hmem).2 rfl
  have hlength := request.length_le
  rw [List.length_append, List.length_singleton] at hlength
  exact readLineWithin_line hline hlength h

/-- A connection that begins with a frame is taken for the request of the frame when the token is that
of the run, and for none otherwise. -/
theorem handshake_frame (request : BrokerRequest) (token : BrokerToken) {stream : Feed UInt8}
    {rest : Bytes} (h : stream.content = request.text ++ 10 :: rest) :
    (handshake stream token).2.content = rest ∧
      ((handshake stream token).1.isSome = true ↔ request.token.text = token.text) := by
  obtain ⟨hline, hrest⟩ := readLine_frame request h
  refine ⟨hrest, ?_⟩
  unfold handshake
  simp only [hline, bind, Option.bind_some, parse_frame]
  by_cases htoken : token.text = request.token.text
  · rw [if_neg (not_not.mpr htoken)]
    cases request <;> simp [htoken]
  · rw [if_pos htoken]
    simp [Ne.symm htoken]

/-! ## Agreement -/

/-- What the host makes of the frame of a request, however it arrives. -/
structure BrokerRequest.Received (request : BrokerRequest) (frame : Bytes) : Prop where
  built : request.frame = some frame
  bounded : frame.length ≤ maxBrokerFrameSize
  line : ∀ (stream : Feed UInt8) (rest : Bytes), stream.content = frame ++ rest →
    (readLine stream).1 = some frame ∧ (readLine stream).2.content = rest
  parsed : parseBrokerRequest frame = some request

theorem BrokerRequest.received (request : BrokerRequest) : ∃ frame, request.Received frame := by
  refine ⟨request.text ++ [10], request.frame_eq, request.length_le, fun stream rest h => ?_,
    parse_frame request⟩
  exact readLine_frame request (by rw [h, List.append_assoc]; rfl)

/-- The tokens and authorities of the two sides correspond, so every frame is that of a request. -/
theorem frames_of_requests :
    (∀ token, ∃ request : BrokerRequest, request.frame = readyFrame token ∧
      request.token.toProxy = token) ∧
    ∀ token authority, ∃ t a, (BrokerRequest.connect t a).frame = connectFrame token authority ∧
      t.toProxy = token ∧ a.toProxy = authority := by
  have htoken (token : Proxy.BrokerToken) : ∃ t : BrokerToken, t.toProxy = token :=
    ⟨⟨token.text, token.length, token.bytes⟩, rfl⟩
  constructor
  · intro token
    obtain ⟨t, rfl⟩ := htoken token
    exact ⟨.ready t, rfl, rfl⟩
  · intro token authority
    obtain ⟨t, rfl⟩ := htoken token
    have hparse := LoopbackAuthority.parse_eq authority.display
    rw [Proxy.LoopbackAuthority.fromStr_display] at hparse
    obtain ⟨a, -, rfl⟩ := Option.map_eq_some_iff.mp hparse
    exact ⟨t, a, rfl, rfl, rfl⟩

/-- When the proxy takes an answer for a success, and what it delivers then. -/
structure AnswerLaw (stream : Feed UInt8) : Prop where
  accepted : (∃ opened, Proxy.readResponse stream = .ok opened) ↔ Proxy.success <+: stream.content
  delivered : ∀ opened, Proxy.readResponse stream = .ok opened →
    opened.Delivers (stream.content.drop Proxy.success.length)
  tunnelled : ∀ opened, Proxy.readResponse stream = .ok opened →
    ∃ rest, stream.content.drop Proxy.success.length = opened.takePrefix.1 ++ rest ∧
      opened.takePrefix.2.Delivers rest

theorem answerLaw (stream : Feed UInt8) : AnswerLaw stream := by
  rcases Proxy.readResponse_spec stream with ⟨opened, hok, hcontent, hsuccess⟩ | ⟨herror, hfail⟩
  · have hopened {o : Proxy.BrokerStream} (h : Proxy.readResponse stream = .ok o) : o = opened :=
      Except.ok.inj (h.symm.trans hok)
    refine ⟨⟨fun _ => hsuccess, fun _ => ⟨opened, hok⟩⟩, fun o h => ?_, fun o h => ?_⟩
    · obtain rfl := hopened h
      have hdelivers := o.delivers
      rwa [Proxy.BrokerStream.content, hcontent] at hdelivers
    · obtain rfl := hopened h
      exact ⟨_, hcontent.symm, o.takePrefix.2.delivers⟩
  · have hclosed (o : Proxy.BrokerStream) : Proxy.readResponse stream ≠ .ok o := by
      intro h
      rw [herror] at h
      cases h
    refine ⟨⟨fun haccepted => ?_, fun h => absurd h hfail⟩, fun o h => absurd h (hclosed o),
      fun o h => absurd h (hclosed o)⟩
    obtain ⟨o, h⟩ := haccepted
    exact absurd h (hclosed o)

/-- **The proxy and the broker agree on the wire.** -/
theorem broker_wire_agreement :
    (∀ request : BrokerRequest, ∃ frame, request.Received frame) ∧
    ((∀ token, ∃ request : BrokerRequest, request.frame = readyFrame token ∧
        request.token.toProxy = token) ∧
      ∀ token authority, ∃ t a, (BrokerRequest.connect t a).frame = connectFrame token authority ∧
        t.toProxy = token ∧ a.toProxy = authority) ∧
    (∀ line request, parseBrokerRequest line = some request → request.frame = some line) ∧
    ∀ stream : Feed UInt8, AnswerLaw stream :=
  ⟨BrokerRequest.received, frames_of_requests, fun _ _ => frame_of_parse, answerLaw⟩

end Vhrn.Cli
