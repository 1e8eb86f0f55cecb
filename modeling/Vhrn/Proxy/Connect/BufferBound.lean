import Vhrn.Proxy.Connect.ResponseHalf
import Vhrn.Proxy.Server.Listener

/-!
# The limit of the streaming buffers

Both halves of a forwarded exchange from the end of their heads on: whatever requests the client's
connection served before, whatever responses the origin's connection brought before, and however the
octets arrive and are taken, each half holds no more than `applicationBufferLimit`, and each read has
room.
-/

namespace Vhrn.Proxy

variable [HttpCrate]

/-- The states of the request half after the head that was read from a client's connection. -/
def RequestReached (head : RequestHead) (connection : Http1Connection) (half : RequestHalf) : Prop :=
  ∃ nominations, Relation.ReflTransGen RequestHalf.Step
    ⟨.new head.framing nominations, connection.source⟩ half

/-- The states of the response half after the head that was read from an origin's stream. -/
def ResponseReached (response : OriginResponseHead) (origin : Source UInt8) (half : ResponseHalf) :
    Prop :=
  ∃ nominations, Relation.ReflTransGen ResponseHalf.Step
    ⟨.new response.framing nominations, origin, none⟩ half

/-- **The streaming buffers stay within their limit.** From the end of the request head on, the unread
part of the connection's buffer and all that the request writer has take no more than the limit, so no
piece that is queued exceeds it; from the end of the response head on, neither do the unread part of the
origin reader's buffer, the trailers that are being read and the frame in hand with its chunk prefix. In
neither half is a read made without room. -/
theorem streaming_buffers_bounded {stream : Bytes} {connection : Http1Connection} {head : RequestHead}
    (hserved : Served stream connection) (hread : connection.readHead.1 = .ok (some head))
    {origin : Source UInt8} {response : OriginResponseHead} (hawaits : OriginAwaits origin)
    (hresponse : (readResponseHead head.method origin).1 = .ok response) :
    (∀ half, RequestReached head connection.readHead.2 half →
      half.held ≤ applicationBufferLimit ∧ half.writer.bufferedBytes ≤ applicationBufferLimit ∧
        ∀ n, half.nextRead = some n → 1 ≤ n) ∧
    (∀ half, ResponseReached response (readResponseHead head.method origin).2 half →
      half.held ≤ applicationBufferLimit ∧ ∀ n, half.nextRead = some n → 1 ≤ n) := by
  obtain ⟨hmodest, -⟩ := hserved.modest
  obtain ⟨-, hmodest', -⟩ := readHead_rest hmodest hread
  refine ⟨fun half hreached => ?_, fun half hreached => ?_⟩
  · obtain ⟨nominations, hrun⟩ := hreached
    have hbounded := RequestHalf.bounded_run hmodest' hrun
    exact ⟨hbounded.held_le, (Nat.le_add_left _ _).trans hbounded.held_le,
      fun n => hbounded.nextRead_pos⟩
  · obtain ⟨nominations, hrun⟩ := hreached
    have hbounded := ResponseHalf.bounded_run (hawaits.modest hresponse) hrun
    exact ⟨hbounded.held_le, fun n => hbounded.nextRead_pos⟩

omit [HttpCrate] in
/-- A request with a body of three octets, and a response with a body of two. -/
theorem streaming_buffers_bounded_example : ∃ (_ : HttpCrate) (request : RequestHalf)
    (response : ResponseHalf), request.held ≤ applicationBufferLimit ∧
      (∀ n, request.nextRead = some n → 1 ≤ n) ∧ response.held ≤ applicationBufferLimit := by
  let _ := HttpCrate.reference
  let request : Bytes := ascii "POST http://a.b/ HTTP/1.1" ++ crlf ++ ascii "Host: a.b" ++ crlf ++
    ascii "Content-Length: 3" ++ crlf ++ crlf ++ ascii "abc"
  let answer : Bytes := ascii "HTTP/1.1 200 OK" ++ crlf ++ ascii "Content-Length: 2" ++ crlf ++ crlf ++
    ascii "de"
  let connection : Http1Connection := .new (.whole request)
  let origin : Source UInt8 := ⟨[], .whole answer⟩
  have hserved : Served request connection := .new (Feed.content_whole _)
  have hawaits : OriginAwaits origin := .fresh rfl
  have heval : (headOfContent request).1.toOption.join.any (fun parsed =>
      (responseHeadOfContent parsed.1.method answer).toOption.isSome) = true := by
    decide +kernel
  obtain ⟨⟨head, rest⟩, isHead, hhead, hanswer⟩ := exists_of_any_join heval
  have hspec := (readHead_spec hserved.modest.1).1
  rw [show connection.source.content = request from Feed.content_whole _, hhead] at hspec
  obtain ⟨hread, -⟩ := headRead_eq_ok (Prod.mk.inj hspec).1.symm
  have hspec' := (@readResponseHead_spec _ head.method origin (Nat.zero_le _)).1
  rw [show origin.content = answer from Feed.content_whole _] at hspec'
  rw [hspec'] at hanswer
  cases hresponse : (readResponseHead head.method origin).1 with
  | error error =>
    rw [hresponse] at hanswer
    cases hanswer
  | ok response =>
    obtain ⟨hrequests, hresponses⟩ := streaming_buffers_bounded hserved hread hawaits hresponse
    obtain ⟨hheld, -, hroom⟩ := hrequests _ ⟨[], .refl⟩
    exact ⟨_, _, _, hheld, hroom, (hresponses _ ⟨[], .refl⟩).1⟩

end Vhrn.Proxy
