import Vhrn.Foundations.Pipeline
import Vhrn.Proxy.Server.Listener

/-!
# Requests of a connection

A connection carries requests one after another: a head, and the body that its framing announces.
`messageOfContent` is the request at the start of a stream that is there as a whole. `readMessages` reads
all requests of a connection up to its end or to an error, and `messages_of_stream` says that everything it
gets is a function of the octets: heads, data, trailers, errors and what is left unread after each body.
-/

namespace Vhrn.Proxy

variable [HttpCrate]

/-! ## Bodies that are given up -/

namespace BodyDecoder

variable {decoder decoder' : BodyDecoder} {source source' : Source UInt8}

/-- A frame is taken from the stream. -/
theorem turn_frame {frame : BodyFrame} (h : decoder.turn source = .frame frame decoder' source') :
    source'.content.length < source.content.length := by
  cases frame with
  | data data => exact turn_data h
  | trailers trailers =>
    have hdata {remaining : ℕ} {after : ℕ → DecoderState} :
        decoder.dataTurn remaining after source ≠ .frame (.trailers trailers) decoder' source' := by
      unfold dataTurn
      split <;> nofun
    unfold turn at h
    split at h
    · cases h
    · cases h
    · exact absurd h hdata
    · split at h
      · cases h
      · simp only at h
        split at h <;> cases h
    · exact absurd h hdata
    · split at h
      · split at h <;> cases h
      · cases h
    · unfold trailerTurn at h
      simp only at h
      split at h
      · cases h
      · rename_i hline
        split at h
        · split at h
          · cases h
          · split at h <;> cases h
            exact content_consume_line rfl hline
        · split at h <;> cases h

theorem nextFrame_frame {frame : BodyFrame}
    (h : decoder.nextFrame source = (.ok (some frame), decoder', source')) :
    source'.content.length < source.content.length := by
  fun_induction nextFrame decoder source with
  | case1 decoder source d s hturn ih =>
    have hlt := ih h
    rcases turn_silent hturn with hle | ⟨heq, -⟩
    · exact hlt.trans hle
    · exact heq ▸ hlt
  | case2 decoder source frame d s hturn =>
    cases h
    exact turn_frame hturn
  | case3 decoder source d s hturn => cases h
  | case4 decoder source error d s hturn => cases h

/-- Reads what is left of a body and gives it up. -/
def drain (decoder : BodyDecoder) (source : Source UInt8) : Except IngressError (Source UInt8) :=
  match _h : decoder.nextFrame source with
  | (.ok (some _), decoder, source) => drain decoder source
  | (.ok none, _, source) => .ok source
  | (.error error, _, _) => .error error
termination_by source.content.length
decreasing_by exact nextFrame_frame _h

theorem suffix_nextFrame {frame : Option BodyFrame}
    (h : decoder.nextFrame source = (.ok frame, decoder', source')) :
    source'.content <:+ source.content := by
  fun_induction nextFrame decoder source with
  | case1 decoder source d s hturn ih =>
    have hnext := suffix_next (congrArg Turn.next hturn)
    exact (ih h).trans hnext
  | case2 decoder source frame' d s hturn =>
    cases h
    exact suffix_next (congrArg Turn.next hturn)
  | case3 decoder source d s hturn =>
    cases h
    exact suffix_next (congrArg Turn.next hturn)
  | case4 decoder source error d s hturn => cases h

theorem suffix_drain (h : decoder.drain source = .ok source') :
    source'.content <:+ source.content := by
  fun_induction drain decoder source with
  | case1 decoder source frame d s hframe ih => exact (ih h).trans (suffix_nextFrame hframe)
  | case2 decoder source d s hframe =>
    obtain rfl := Except.ok.inj h
    exact suffix_nextFrame hframe
  | case3 decoder source error d s hframe => cases h

/-- **A body that is given up is read to its end**, and the connection stands right after it. -/
theorem drain_spec (hready : Ready decoder source) :
    (decoder.drain source).map Source.content =
        (decoder.bodyOfContent source.content).ending.map Prod.snd ∧
      ∀ source', decoder.drain source = .ok source' → Modest source' := by
  have hlaw := nextFrame_law hready
  fun_induction drain decoder source with
  | case1 decoder source frame decoder' source' hframe ih =>
    rw [hframe] at hlaw
    cases frame with
    | data data =>
      obtain ⟨-, hready', hbody⟩ := hlaw
      rw [hbody]
      exact ih hready' (nextFrame_law hready')
    | trailers trailers =>
      obtain ⟨hstate, hready', hbody⟩ := hlaw
      have hrest := ih hready' (nextFrame_law hready')
      rw [bodyOfContent_complete hstate] at hrest
      rw [hbody]
      exact hrest
  | case2 decoder source decoder' source' hframe =>
    rw [hframe] at hlaw
    obtain ⟨-, hready', hbody⟩ := hlaw
    rw [hbody]
    exact ⟨rfl, fun s hs => Except.ok.inj hs ▸ hready'.modest⟩
  | case3 decoder source error decoder' source' hframe =>
    rw [hframe] at hlaw
    have hbody : decoder.bodyOfContent source.content = ⟨[], .error error⟩ := hlaw
    rw [hbody]
    exact ⟨rfl, fun s hs => by cases hs⟩

end BodyDecoder

/-! ## Requests of whole streams -/

/-- A request: its head, the data of its body and the trailers, if there are any. -/
structure RequestMessage where
  head : RequestHead
  data : Bytes
  trailers : Option HeaderMap

/-- The body that a head announces, at the start of what follows the head. -/
def RequestHead.bodyOfContent (head : RequestHead) (content : Bytes) : Body :=
  (BodyDecoder.new head.framing).bodyOfContent content

/-- The request at the start of a stream that is there as a whole, and what follows it. -/
def messageOfContent (content : Bytes) : Option (RequestMessage × Bytes) :=
  match (headOfContent content).1 with
  | .ok (some (head, followed)) =>
    match head.bodyOfContent followed with
    | ⟨data, .ok (trailers, rest)⟩ => some (⟨head, data, trailers⟩, rest)
    | ⟨_, .error _⟩ => none
  | _ => none

/-- What follows a body is an end of what follows its head. -/
theorem suffix_bodyOfContent {decoder : BodyDecoder} {content rest : Bytes}
    {trailers : Option HeaderMap}
    (h : (decoder.bodyOfContent content).ending = .ok (trailers, rest)) : rest <:+ content := by
  fun_induction BodyDecoder.bodyOfContent decoder content generalizing rest trailers
  case case1 =>
    cases h
    exact List.suffix_rfl
  case case3 | case14 =>
    cases h
    exact List.drop_suffix _ _
  case case6 ih => exact (ih (by simpa using h)).trans (List.drop_suffix _ _)
  case case8 ih | case11 ih | case16 ih => exact (ih h).trans (List.drop_suffix _ _)
  -- the other bodies end with an error
  all_goals cases h

/-- A head takes some octets of the stream. -/
theorem headOfContent_rest {content rest : Bytes} {head : RequestHead}
    (h : (headOfContent content).1 = .ok (some (head, rest))) :
    rest <:+ content ∧ rest.length < content.length := by
  unfold headOfContent at h
  split at h
  · split at h <;> cases h
  · rename_i lineLength hline
    simp only at h
    split at h
    · cases h
    · rename_i headLength hhead
      split at h
      · cases h
      · obtain ⟨-, rfl⟩ := Prod.mk.inj (Option.some.inj (Except.ok.inj h))
        obtain ⟨hfind, hle⟩ := Search.ofContent_le hhead
        obtain ⟨m, hm, rfl⟩ := Option.map_eq_some_iff.mp hfind
        have hpos : 0 < m := @Finds.later _ _ finds_findSectionEnd [] _ m rfl hm
        refine ⟨List.drop_suffix _ _, ?_⟩
        rw [List.length_drop]
        omega

/-- A head that is read is read also when more follows. -/
theorem headOfContent_append {content rest : Bytes} {head : RequestHead} {isHead : Bool}
    (h : headOfContent content = (.ok (some (head, rest)), isHead)) (more : Bytes) :
    headOfContent (content ++ more) = (.ok (some (head, rest ++ more)), isHead) := by
  unfold headOfContent at h ⊢
  split at h
  · split at h <;> cases (Prod.mk.inj h).1
  · rename_i lineLength hline
    rw [Search.ofContent_append hline more]
    simp only at h ⊢
    rw [List.take_append_of_le_length (Search.ofContent_le hline).2]
    split at h
    · cases (Prod.mk.inj h).1
    · rename_i headLength hhead
      have hle := (Search.ofContent_le hhead).2
      rw [Search.ofContent_append hhead more]
      simp only
      rw [List.take_append_of_le_length hle, List.drop_append_of_le_length hle]
      split at h
      · cases (Prod.mk.inj h).1
      · obtain ⟨hread, hmark⟩ := Prod.mk.inj h
        obtain ⟨rfl, rfl⟩ := Prod.mk.inj (Option.some.inj (Except.ok.inj hread))
        rw [hmark]

/-- **A request takes some octets of the stream.** -/
theorem messageOfContent_rest {content rest : Bytes} {message : RequestMessage}
    (h : messageOfContent content = some (message, rest)) :
    rest <:+ content ∧ rest.length < content.length := by
  unfold messageOfContent at h
  split at h
  · rename_i head followed hhead
    obtain ⟨hsuffix, hlt⟩ := headOfContent_rest hhead
    split at h
    · rename_i data trailers rest' hbody
      obtain ⟨-, rfl⟩ := Prod.mk.inj (Option.some.inj h)
      have hrest : rest' <:+ followed :=
        suffix_bodyOfContent (congrArg Body.ending hbody)
      exact ⟨hrest.trans hsuffix, hrest.length_le.trans_lt hlt⟩
    · cases h
  · cases h

/-! ## Reading a connection -/

/-- What ends the requests of a connection: the end of the stream, a head that is refused, with the mark
of its request line, or a body that is. -/
inductive RequestsEnd
  | closed
  | head (error : IngressError) (requestIsHead : Bool)
  | body (head : RequestHead) (data : Bytes) (error : IngressError)

/-- All requests of a stream that is there as a whole, each with what follows it, and what ends them. -/
def messagesOfContent (content : Bytes) : List (RequestMessage × Bytes) × RequestsEnd :=
  match _h : headOfContent content with
  | (.error error, isHead) => ([], .head error isHead)
  | (.ok none, _) => ([], .closed)
  | (.ok (some (head, followed)), _) =>
    match _hbody : head.bodyOfContent followed with
    | ⟨data, .error error⟩ => ([], .body head data error)
    | ⟨data, .ok (trailers, rest)⟩ =>
      let (messages, ending) := messagesOfContent rest
      ((⟨head, data, trailers⟩, rest) :: messages, ending)
termination_by content.length
decreasing_by
  have hrest : rest <:+ followed := suffix_bodyOfContent (congrArg Body.ending _hbody)
  exact hrest.length_le.trans_lt (headOfContent_rest (congrArg Prod.fst _h)).2

section

variable {content followed rest data : Bytes} {head : RequestHead} {error : IngressError}

theorem messagesOfContent_error {isHead : Bool} (h : headOfContent content = (.error error, isHead)) :
    messagesOfContent content = ([], .head error isHead) := by
  rw [messagesOfContent]
  split <;> simp_all

theorem messagesOfContent_closed (h : (headOfContent content).1 = .ok none) :
    messagesOfContent content = ([], .closed) := by
  rw [messagesOfContent]
  split <;> simp_all

theorem messagesOfContent_body (h : (headOfContent content).1 = .ok (some (head, followed)))
    (hbody : head.bodyOfContent followed = ⟨data, .error error⟩) :
    messagesOfContent content = ([], .body head data error) := by
  rw [messagesOfContent]
  split
  · simp_all
  · simp_all
  · rename_i hhead
    rw [hhead] at h
    obtain ⟨rfl, rfl⟩ := Prod.mk.inj (Option.some.inj (Except.ok.inj h))
    split <;> simp_all

theorem messagesOfContent_cons {trailers : Option HeaderMap}
    (h : (headOfContent content).1 = .ok (some (head, followed)))
    (hbody : head.bodyOfContent followed = ⟨data, .ok (trailers, rest)⟩) :
    messagesOfContent content = ((⟨head, data, trailers⟩, rest) :: (messagesOfContent rest).1,
      (messagesOfContent rest).2) := by
  rw [messagesOfContent]
  split
  · simp_all
  · simp_all
  · rename_i hhead
    rw [hhead] at h
    obtain ⟨rfl, rfl⟩ := Prod.mk.inj (Option.some.inj (Except.ok.inj h))
    split <;> simp_all

end

namespace Http1Connection

variable {connection connection' : Http1Connection} {head : RequestHead}

/-- Waits for a request and reads its head; `none` at the end of the stream. -/
def readRequestHead (connection : Http1Connection) :
    Except IngressError (Option RequestHead) × Http1Connection :=
  match connection.waitForHeadStart with
  | (false, connection) => (.ok none, connection)
  | (true, connection) => connection.readHead

omit [HttpCrate] in
theorem content_waitForHeadStart (connection : Http1Connection) :
    connection.waitForHeadStart.2.source.content = connection.source.content := by
  by_cases h : connection.source.buffered = []
  · exact (waitForHeadStart_spec (by rw [Modest, h]; exact Nat.zero_le _)).1
  · rw [waitForHeadStart, if_pos h]

/-- A head that is read takes some octets of the stream. -/
theorem readHead_lt (h : connection.readHead = (.ok (some head), connection')) :
    connection'.source.content.length < connection.source.content.length := by
  have hcontent := Search.content_read requestLineSearch requestLineLimit
    (readRoom requestLineLimit) connection.source
  unfold readHead at h
  split at h
  · split at h <;> cases h
  · rename_i lineLength source hline
    rw [hline] at hcontent
    simp only at h hcontent
    split at h
    · cases h
    · rename_i headLength source' hhead
      have hread : ((headSearch lineLength).read (lineLength + headerSectionLimit)
        (readRoom (lineLength + headerSectionLimit)) source).1 = .ok headLength := by rw [hhead]
      have hconsume := Search.content_consume_read hread
      have hfind := (Search.find_of_read hread).1
      have hle := Search.le_of_read hread
      have hsame := Search.content_read (headSearch lineLength) (lineLength + headerSectionLimit)
        (readRoom (lineLength + headerSectionLimit)) source
      obtain ⟨m, hm, rfl⟩ := Option.map_eq_some_iff.mp hfind
      have hpos : 0 < m := @Finds.later _ _ finds_findSectionEnd [] _ m rfl hm
      rw [hhead] at hconsume hle hsame
      simp only at hconsume hle hsame
      have hlength : source'.buffered.length ≤ connection.source.content.length := by
        rw [← hcontent, ← hsame, Source.content, List.length_append]
        omega
      split at h
      · cases h
      · cases h
        rw [hconsume, List.length_drop, hcontent]
        omega

theorem readRequestHead_lt (h : connection.readRequestHead = (.ok (some head), connection')) :
    connection'.source.content.length < connection.source.content.length := by
  have hcontent := content_waitForHeadStart connection
  unfold readRequestHead at h
  split at h
  · cases h
  · rename_i waited hwait
    rw [hwait] at hcontent
    exact (readHead_lt h).trans_eq (congrArg List.length hcontent)

/-- **Waiting and reading find the head of the whole stream.** -/
theorem readRequestHead_spec (h : Modest connection.source) :
    (headOfContent connection.source.content).1 =
        headRead connection.readRequestHead.1 connection.readRequestHead.2.source.content ∧
      (∀ error, connection.readRequestHead.1 = .error error →
        (headOfContent connection.source.content).2 = connection.readRequestHead.2.requestIsHead) ∧
      ∀ head, connection.readRequestHead.1 = .ok (some head) →
        Modest connection.readRequestHead.2.source := by
  obtain ⟨hcontent, hmodest, hempty⟩ := waitForHeadStart_spec h
  unfold readRequestHead
  rcases hwait : connection.waitForHeadStart with ⟨_ | _, waited⟩
  · rw [hwait] at hempty
    rw [hempty.mp rfl]
    exact ⟨rfl, fun _ herror => (nomatch herror), fun _ hhead => nomatch hhead⟩
  · rw [hwait] at hcontent hmodest
    simp only at hcontent hmodest ⊢
    obtain ⟨hhead, hmodest'⟩ := readHead_spec hmodest
    rw [← hcontent, hhead]
    exact ⟨rfl, fun _ _ => rfl, hmodest'⟩

/-- All requests that are read of a connection, each with what is left unread after it, and what ends
them. -/
def readMessages (connection : Http1Connection) : List (RequestMessage × Bytes) × RequestsEnd :=
  match _h : connection.readRequestHead with
  | (.error error, connection) => ([], .head error connection.requestIsHead)
  | (.ok none, _) => ([], .closed)
  | (.ok (some head), connection) =>
    match (BodyDecoder.new head.framing).readBody connection.source with
    | ⟨data, .error error⟩ => ([], .body head data error)
    | ⟨data, .ok (trailers, _)⟩ =>
      match _hdrain : (BodyDecoder.new head.framing).drain connection.source with
      | .error error => ([], .body head data error)
      | .ok source =>
        let (messages, ending) := readMessages { connection with source }
        ((⟨head, data, trailers⟩, source.content) :: messages, ending)
termination_by connection.source.content.length
decreasing_by exact (BodyDecoder.suffix_drain _hdrain).length_le.trans_lt (readRequestHead_lt _h)

/-- **What is read of a connection is a function of its octets**: the heads, the data, the trailers, the
errors and what is left unread after each body do not depend on the pieces in which they arrive. -/
theorem readMessages_eq_messagesOfContent (h : Modest connection.source) :
    connection.readMessages = messagesOfContent connection.source.content := by
  fun_induction readMessages connection with
  | case1 connection error connection' hread =>
    obtain ⟨hhead, hmark, -⟩ := readRequestHead_spec h
    rw [hread] at hhead hmark
    exact (messagesOfContent_error (Prod.ext hhead (hmark error rfl))).symm
  | case2 connection connection' hread =>
    obtain ⟨hhead, -, -⟩ := readRequestHead_spec h
    rw [hread] at hhead
    exact (messagesOfContent_closed hhead).symm
  | case3 connection head connection' hread data error hbody =>
    obtain ⟨hhead, -, hmodest⟩ := readRequestHead_spec h
    rw [hread] at hhead hmodest
    have hready := BodyDecoder.ready_new head.framing (hmodest head rfl)
    rw [BodyDecoder.readBody_eq hready] at hbody
    exact (messagesOfContent_body hhead hbody).symm
  | case4 connection head connection' hread data trailers rest hbody error hdrain =>
    obtain ⟨-, -, hmodest⟩ := readRequestHead_spec h
    rw [hread] at hmodest
    have hready := BodyDecoder.ready_new head.framing (hmodest head rfl)
    have hending := (BodyDecoder.drain_spec hready).1
    rw [BodyDecoder.readBody_eq hready] at hbody
    rw [hbody, hdrain] at hending
    cases hending
  | case5 connection head connection' hread data trailers rest hbody source hdrain messages ending hrest
      ih =>
    obtain ⟨hhead, -, hmodest⟩ := readRequestHead_spec h
    rw [hread] at hhead hmodest
    have hready := BodyDecoder.ready_new head.framing (hmodest head rfl)
    obtain ⟨hending, hmodest'⟩ := BodyDecoder.drain_spec hready
    rw [BodyDecoder.readBody_eq hready] at hbody
    rw [hbody, hdrain] at hending
    obtain rfl : source.content = rest := Except.ok.inj hending
    rw [messagesOfContent_cons hhead hbody, ← ih (hmodest' source hdrain), hrest]

end Http1Connection

/-- **All that is read of a new connection is a function of the octets that arrive**, in whatever pieces
they arrive. -/
theorem messages_of_stream (incoming : Feed UInt8) :
    (Http1Connection.new incoming).readMessages = messagesOfContent incoming.content :=
  Http1Connection.readMessages_eq_messagesOfContent (Nat.zero_le _)

end Vhrn.Proxy
