import Vhrn.Proxy.Server.Http1.Scan

/-!
# Reading request heads

The connection of a client and the incremental reader of request heads. The reader looks for the ends
of the request line and of the head in what is buffered, each within its limit, and reads on in bounded
steps. `headOfContent` is the head of a stream that is there as a whole; `readHead_spec` shows that the
reader finds the same head, whatever the pieces in which the stream arrives.
-/

namespace Vhrn.Proxy

/-! ## Limits -/

def requestLineLimit : ℕ := 8 * 1024

def headerSectionLimit : ℕ := 64 * 1024

def applicationBufferLimit : ℕ := 64 * 1024

def requestBodyFrameLimit : ℕ := applicationBufferLimit / 2

def chunkPrefixLimit : ℕ := 8 * 2 + 2

def responseBodyFrameLimit : ℕ := applicationBufferLimit - chunkPrefixLimit

def connectionBufferLimit : ℕ := requestLineLimit + headerSectionLimit

/-- The room of one read for syntax, with so many octets buffered. -/
def readRoom (limit buffered : ℕ) : ℕ :=
  min (min (buffered + requestLineLimit) limit) connectionBufferLimit - buffered

theorem readRoom_le (limit buffered : ℕ) : readRoom limit buffered ≤ requestLineLimit := by
  unfold readRoom
  omega

theorem roomWithin_readRoom {limit : ℕ} (h : limit ≤ connectionBufferLimit) :
    Source.RoomWithin (readRoom limit) limit := by
  intro k hk
  have hpos : 0 < requestLineLimit := by decide
  unfold readRoom
  omega

/-! ## Searches -/

def requestLineSearch : Search UInt8 IngressError where
  find := lineEnd
  check := validRequestLine
  refused := .badRequest
  tooLong := .badRequest
  ended := .incomplete
  finds := finds_lineEnd
  closed := closed_validRequestLine

/-- The search for the end of a head whose request line has the given length. -/
def headSearch (lineLength : ℕ) : Search UInt8 IngressError where
  find := findHeadEnd lineLength
  check := validLineEndingsFrom none
  refused := .badRequest
  tooLong := .headersTooLarge
  ended := .incomplete
  finds := finds_findHeadEnd lineLength
  closed := closed_validLineEndings

/-! ## The connection -/

/-- The connection of a client: what has been read of it and not used, what is still to arrive, and
whether the request line read last asks for `HEAD`. -/
structure Http1Connection where
  source : Source UInt8
  requestIsHead : Bool

def requestLineIsHead (line : Bytes) : Bool := (line.splitOn 32).head? == some Method.head

variable [HttpCrate]

namespace Http1Connection

def new (incoming : Feed UInt8) : Http1Connection :=
  { source := { buffered := [], incoming }, requestIsHead := false }

/-- Waits for the first octet of a request. -/
def waitForHeadStart (c : Http1Connection) : Bool × Http1Connection :=
  if c.source.buffered ≠ [] then (true, c)
  else
    let (arrived, incoming) := c.source.incoming.read 1
    (!arrived.isEmpty, { c with source := { buffered := arrived, incoming } })

/-- Reads a request head; `none` at the end of the stream. -/
def readHead (c : Http1Connection) : Except IngressError (Option RequestHead) × Http1Connection :=
  match requestLineSearch.read requestLineLimit (readRoom requestLineLimit) c.source with
  | (.error error, source) =>
    (if source.buffered.isEmpty then .ok none else .error error, { source, requestIsHead := false })
  | (.ok lineLength, source) =>
    let requestIsHead := requestLineIsHead (source.buffered.take lineLength)
    let limit := lineLength + headerSectionLimit
    match (headSearch lineLength).read limit (readRoom limit) source with
    | (.error error, source) => (.error error, { source, requestIsHead })
    | (.ok headLength, source) =>
      let head := source.buffered.take headLength
      match parseHead (head.take lineLength) (head.drop lineLength) with
      | .error error => (.error error, { source, requestIsHead })
      | .ok head => (.ok (some head), { source := source.consume headLength, requestIsHead })

end Http1Connection

/-! ## Heads of whole streams -/

/-- The head at the start of a stream and what follows it, with the `HEAD` mark of its request line. -/
def headOfContent (content : Bytes) :
    Except IngressError (Option (RequestHead × Bytes)) × Bool :=
  match requestLineSearch.ofContent requestLineLimit content with
  | .error error => (if content.isEmpty then .ok none else .error error, false)
  | .ok lineLength =>
    let requestIsHead := requestLineIsHead (content.take lineLength)
    match (headSearch lineLength).ofContent (lineLength + headerSectionLimit) content with
    | .error error => (.error error, requestIsHead)
    | .ok headLength =>
      let head := content.take headLength
      match parseHead (head.take lineLength) (head.drop lineLength) with
      | .error error => (.error error, requestIsHead)
      | .ok head => (.ok (some (head, content.drop headLength)), requestIsHead)

/-- Little is buffered, as it is between the messages of a connection. -/
def Modest (s : Source UInt8) : Prop := s.buffered.length ≤ requestLineLimit

/-- The head that a reader has found and where it stands. -/
def headRead (result : Except IngressError (Option RequestHead)) (rest : Bytes) :
    Except IngressError (Option (RequestHead × Bytes)) :=
  result.map fun head => head.map fun head => (head, rest)

theorem headRead_eq_ok {result : Except IngressError (Option RequestHead)} {rest rest' : Bytes}
    {head : RequestHead} (h : headRead result rest = .ok (some (head, rest'))) :
    result = .ok (some head) ∧ rest' = rest := by
  rcases result with error | _ | found
  · cases h
  · cases h
  · obtain ⟨rfl, rfl⟩ := Prod.mk.inj (Option.some.inj (Except.ok.inj h))
    exact ⟨rfl, rfl⟩

omit [HttpCrate] in
theorem waitForHeadStart_spec {c : Http1Connection} (h : Modest c.source) :
    c.waitForHeadStart.2.source.content = c.source.content ∧ Modest c.waitForHeadStart.2.source ∧
      (c.waitForHeadStart.1 = false ↔ c.source.content = []) := by
  unfold Http1Connection.waitForHeadStart
  split
  · rename_i hbuffered
    refine ⟨rfl, h, iff_of_false (by simp) ?_⟩
    rw [Source.content]
    exact fun hnil => hbuffered (List.append_eq_nil_iff.mp hnil).1
  · rename_i hbuffered
    have hnil : c.source.buffered = [] := not_not.mp hbuffered
    have happend := Feed.read_append c.source.incoming 1
    have hlength := Feed.length_read_le c.source.incoming 1
    have hcontent : c.source.content = c.source.incoming.content := by
      rw [Source.content, hnil, List.nil_append]
    refine ⟨happend.trans hcontent.symm, hlength.trans (by decide), ?_⟩
    rw [hcontent]
    show (!(c.source.incoming.read 1).1.isEmpty) = false ↔ _
    rw [Bool.not_eq_false', List.isEmpty_iff]
    constructor
    · exact Feed.read_eq_nil le_rfl
    · intro hempty
      rw [hempty] at happend
      exact (List.append_eq_nil_iff.mp happend).1

omit [HttpCrate] in
theorem isEmpty_readLine (s : Source UInt8) :
    (requestLineSearch.read requestLineLimit (readRoom requestLineLimit) s).2.buffered.isEmpty =
      s.content.isEmpty := by
  have hcontent := Search.content_read requestLineSearch requestLineLimit
    (readRoom requestLineLimit) s
  rw [Bool.eq_iff_iff, List.isEmpty_iff, List.isEmpty_iff]
  constructor
  · exact Source.content_eq_nil_of_fill (roomWithin_readRoom (by decide)) (by decide) (by decide)
  · intro hnil
    rw [hnil, Source.content] at hcontent
    exact (List.append_eq_nil_iff.mp hcontent).1

omit [HttpCrate] in
/-- A request line that is found leaves the head within the connection's buffer. -/
theorem headLimit_le {s : Source UInt8} {lineLength : ℕ}
    (h : (requestLineSearch.read requestLineLimit (readRoom requestLineLimit) s).1 = .ok lineLength) :
    lineLength + headerSectionLimit ≤ connectionBufferLimit := by
  have hle := (Search.find_of_read h).2
  unfold connectionBufferLimit
  omega

omit [HttpCrate] in
/-- What a search within the connection's buffer finds, and what is left when it is taken. -/
theorem search_spec {ε : Type*} (search : Search UInt8 ε) {limit : ℕ}
    (hlimit : limit ≤ connectionBufferLimit) {s : Source UInt8} (h : Modest s)
    (hs : s.buffered.length ≤ limit) :
    let found := search.read limit (readRoom limit) s
    found.1 = search.ofContent limit s.content ∧
      (∀ n, found.1 = .ok n → ∀ m ≤ n, found.2.buffered.take m = s.content.take m) ∧
      (∀ n, found.1 = .ok n → (found.2.consume n).content = s.content.drop n) ∧
      (∀ n, found.1 = .ok n → Modest (found.2.consume n)) ∧
      (∀ n, found.1 = .ok n → n + (found.2.consume n).buffered.length ≤ limit) := by
  have hroom := roomWithin_readRoom hlimit
  refine ⟨Search.read_fst _ hroom hs, fun n hn m hm => ?_, fun n hn => Search.content_consume_read hn,
    fun n hn => ?_, fun n hn => ?_⟩
  · have htake := Search.take_of_read hn
    rw [← Nat.min_eq_left hm, ← List.take_take, ← List.take_take, htake]
  · have hlength := Search.length_after_read (readRoom_le _) h hn
    show (List.drop n _).length ≤ requestLineLimit
    rw [List.length_drop]
    omega
  · have hlength := Search.length_read_le search hroom hs
    have hn' := Search.le_of_read hn
    show n + (List.drop n _).length ≤ limit
    rw [List.length_drop]
    omega

/-- **The reader finds the head of the whole stream.** -/
theorem readHead_spec {c : Http1Connection} (h : Modest c.source) :
    headOfContent c.source.content =
        (headRead c.readHead.1 c.readHead.2.source.content, c.readHead.2.requestIsHead) ∧
      (∀ head, c.readHead.1 = .ok (some head) → Modest c.readHead.2.source) := by
  have hroom : Source.RoomWithin (readRoom requestLineLimit) requestLineLimit :=
    roomWithin_readRoom (by decide)
  have hline := Search.read_fst requestLineSearch hroom h
  have hcontent := Search.content_read requestLineSearch requestLineLimit
    (readRoom requestLineLimit) c.source
  have hempty := isEmpty_readLine c.source
  have hlength := Search.length_read_le requestLineSearch hroom h
  have hlimit := @headLimit_le c.source
  have htake := @Search.take_of_read _ _ requestLineSearch requestLineLimit
    (readRoom requestLineLimit) c.source
  unfold headOfContent Http1Connection.readHead
  rw [← hline]
  generalize requestLineSearch.read requestLineLimit (readRoom requestLineLimit) c.source = line at *
  obtain ⟨_ | lineLength, s⟩ := line
  · rename_i error
    simp only at hempty ⊢
    rw [hempty]
    refine ⟨?_, fun head hhead => ?_⟩
    · split <;> rfl
    · split at hhead <;> cases hhead
  · simp only at hcontent hlength hlimit htake ⊢
    rw [htake rfl]
    have hwithin : s.buffered.length ≤ lineLength + headerSectionLimit := by
      have : requestLineLimit ≤ headerSectionLimit := by decide
      omega
    have hhead := search_spec (headSearch lineLength) (hlimit rfl) hlength hwithin
    rw [hcontent] at hhead
    obtain ⟨hfst, htake', hconsume, hmodest, -⟩ := hhead
    rw [← hfst]
    generalize (headSearch lineLength).read (lineLength + headerSectionLimit)
      (readRoom (lineLength + headerSectionLimit)) s = head at *
    obtain ⟨_ | headLength, s'⟩ := head
    · exact ⟨rfl, fun head hhead => by cases hhead⟩
    · simp only at htake' hconsume hmodest ⊢
      rw [htake' _ rfl _ le_rfl]
      split
      · exact ⟨rfl, fun head hhead => by cases hhead⟩
      · exact ⟨by rw [← hconsume _ rfl]; rfl, fun head _ => hmodest _ rfl⟩

end Vhrn.Proxy
