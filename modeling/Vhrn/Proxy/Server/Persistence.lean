import Vhrn.Proxy.Server.Http1.Framing
import Vhrn.Proxy.Server.Listener
import Vhrn.Proxy.Server.Router

/-!
# Connections that outlive a message

A client connection is kept for another request and an origin connection is pooled unless the head of the
message was marked as the last. The mark is computed from the version and the `Connection` fields, by the
same rule in both parsers, and the rule for HTTP/1.0 reads no `close`: `persistence_iff` says that the
marks are right and heeded exactly when an HTTP/1.0 message does not ask for both and the head is not an
interim one, whose mark nothing reads.
-/

namespace Vhrn.Proxy

variable [HttpCrate]

/-! ## After a request -/

/-- What happens while the response to a request is written. -/
structure ResponseEvents where
  /-- The shutdown was requested before the response was there. -/
  shutdownRequested : Bool
  /-- The response was written, rather than given up for a shutdown. -/
  written : Bool
  shutdownAfter : Bool
  /-- What was left of the request body was read to its end. -/
  drained : Bool

/-- Serves a request other than `CONNECT`, once it has an outcome: the connection ends after it. -/
def serveHttpRequest {β : Type} (head : RequestHead) (outcome : Http1Outcome β)
    (events : ResponseEvents) : Bool :=
  if head.upgrade then true
  else if events.shutdownRequested then true
  else
    let close := head.close || !outcome.reusable ||
      (!outcome.bodyConsumed && head.expect && head.framing.hasBody)
    let closed := (prepareResponseHead outcome.response.status outcome.response.headers head.version
      head.method close).close
    if !events.written then true
    else if closed || events.shutdownAfter then true
    else !outcome.bodyConsumed && head.framing.hasBody && !events.drained

/-- The connection ends after a `CONNECT` request, or becomes a tunnel. -/
def ConnectOutcome.ends (head : RequestHead) : ConnectOutcome → Bool
  | .complete | .tunnel .. => true
  | .answered failed close =>
    let response : Response Unit := failure failed false
    (prepareResponseHead response.status response.headers head.version head.method close).close

/-- An origin connection is offered to the pool after the response with the given head. -/
def poolable (requestComplete : Bool) (response : OriginResponseHead) : Bool :=
  requestComplete && !response.close && response.framing != .closeDelimited

/-- The mark for the pool of the body that follows the heads of an origin: an interim head goes on to the
client and its own mark is dropped, and the first final one decides. -/
def bodyPoolable (version : Version) (requestComplete : Bool) : List OriginResponseHead → Bool
  | [] => false
  | response :: responses =>
    if (forwardResponseHead version response).isNone then false
    else if response.status.isInformational then bodyPoolable version requestComplete responses
    else poolable requestComplete response

/-- What becomes of an origin connection after the body of its response. -/
def finishOrigin (pool : PublicPool) (key : OriginKey) (origin : HttpOrigin PublicStream)
    (poolable : Bool) (now stored : ℕ) : PublicPool :=
  if poolable then pool.putIfReusable key origin originReusable now stored else pool

theorem prepareResponseHead_close (status : StatusCode) (headers : HeaderMap) (version : Version)
    (method : Method) : (prepareResponseHead status headers version method true).close = true := by
  simp [prepareResponseHead]

/-- **A request that is marked as the last is.** -/
theorem serveHttpRequest_of_close {β : Type} {head : RequestHead} (h : head.close = true)
    (outcome : Http1Outcome β) (events : ResponseEvents) :
    serveHttpRequest head outcome events = true := by
  unfold serveHttpRequest
  simp only [h, Bool.true_or, prepareResponseHead_close]
  split
  · rfl
  split
  · rfl
  split
  · rfl
  rfl

theorem connectEnds_of_close {head : RequestHead} (h : head.close = true)
    (connection : Http1Connection) (events : ConnectEvents) :
    (serveConnect head connection events).ends head = true := by
  unfold serveConnect
  simp only
  split
  · exact prepareResponseHead_close _ _ _ _
  split
  · rfl
  split
  · rw [h]
    exact prepareResponseHead_close _ _ _ _
  · split
    · exact prepareResponseHead_close _ _ _ _
    split <;> rfl

/-- **The final head decides** after heads that are interim and go on. -/
theorem bodyPoolable_append {version : Version} (requestComplete : Bool)
    {interims : List OriginResponseHead} (hinterims : ∀ response ∈ interims,
      response.status.isInformational = true ∧ (forwardResponseHead version response).isSome = true)
    (later : List OriginResponseHead) : bodyPoolable version requestComplete (interims ++ later) =
      bodyPoolable version requestComplete later := by
  induction interims with
  | nil => rfl
  | cons response interims ih =>
    obtain ⟨hinterim, hforward⟩ := hinterims response List.mem_cons_self
    rw [List.cons_append, bodyPoolable, if_neg (by simp [Option.isSome_iff_ne_none.mp hforward]),
      if_pos hinterim]
    exact ih fun response hmem => hinterims response (List.mem_cons_of_mem _ hmem)

/-! ## Connection options -/

/-- A member of a `Connection` field, in any letter case. -/
def HasOption (headers : HeaderMap) (option : Bytes) : Prop :=
  ∃ value ∈ headers.getAll .connection, ∃ member ∈ value.asBytes.splitOn 44,
    eqIgnoreCase (trimOws member) option = true

theorem hasOption_iff {headers : HeaderMap} {tokens : List Bytes} {option : Bytes}
    (h : commaTokens headers .connection = .ok tokens) :
    tokens.any (eqIgnoreCase · option) = true ↔ HasOption headers option := by
  unfold commaTokens at h
  simp only at h
  split at h
  · obtain rfl := Except.ok.inj h
    rw [List.any_eq_true]
    constructor
    · rintro ⟨token, htoken, hoption⟩
      obtain ⟨value, hvalue, hmember⟩ := List.mem_flatMap.mp htoken
      obtain ⟨member, hsplit, rfl⟩ := List.mem_map.mp hmember
      exact ⟨value, hvalue, member, hsplit, hoption⟩
    · rintro ⟨value, hvalue, member, hmember, hoption⟩
      exact ⟨trimOws member, List.mem_flatMap.mpr ⟨value, hvalue, List.mem_map_of_mem hmember⟩, hoption⟩
  · cases h

/-- The rule of a version for the message to be the last. -/
theorem closesAfter_iff {headers : HeaderMap} {tokens : List Bytes} (version : Version)
    (h : commaTokens headers .connection = .ok tokens) :
    closesAfter version tokens = true ↔
      version = .http10 ∧ ¬ HasOption headers (ascii "keep-alive") ∨
        version = .http11 ∧ HasOption headers (ascii "close") := by
  have hoption (option : Bytes) : tokens.any (eqIgnoreCase · option) = true ↔ _ := hasOption_iff h
  rw [← hoption, ← hoption]
  cases version <;> simp [closesAfter]

/-- A message is marked as the last for a `close`, and for want of a `keep-alive` in HTTP/1.0. -/
def Asked (version : Version) (headers : HeaderMap) : Prop :=
  HasOption headers (ascii "close") ∨ version = .http10 ∧ ¬ HasOption headers (ascii "keep-alive")

/-- The mark of a request head is right, and the connection is not kept against it. -/
structure RequestMarked (head : RequestHead) : Prop where
  close : HasOption head.headers (ascii "close") → head.close = true ∧
    (∀ (β : Type) (outcome : Http1Outcome β) events, serveHttpRequest head outcome events = true) ∧
      ∀ connection events, (serveConnect head connection events).ends head = true
  http10 : head.version = .http10 → ¬ HasOption head.headers (ascii "keep-alive") → head.close = true
  only : head.close = true → Asked head.version head.headers

/-- A head that the parser accepts in the response to a method. -/
def OriginResponseHead.Accepted (requestMethod : Method) (head : OriginResponseHead) : Prop :=
  ∃ statusLine headerSection, parseOriginResponseHead statusLine headerSection requestMethod = .ok head

/-- The mark of a response head is right, and the connection is not pooled against it, whatever heads
follow. -/
structure ResponseMarked (requestMethod : Method) (head : OriginResponseHead) : Prop where
  close : HasOption head.headers (ascii "close") → head.close = true ∧
    ∀ later : List OriginResponseHead, (∀ response ∈ later, response.Accepted requestMethod) →
      ∀ version requestComplete pool key origin now stored,
        finishOrigin pool key origin (bodyPoolable version requestComplete (head :: later)) now stored =
          pool
  http10 : head.version = .http10 → ¬ HasOption head.headers (ascii "keep-alive") → head.close = true
  only : head.close = true → Asked head.version head.headers ∨ head.framing = .closeDelimited

/-! ## The exact condition -/

/-- Fields that ask for both, that the message is the last and that it is not. -/
def Contradicts (headerSection : Bytes) : Prop :=
  ∃ headers, parseFields headerSection = .ok headers ∧ HasOption headers (ascii "close") ∧
    HasOption headers (ascii "keep-alive")

/-- A request line of HTTP/1.0. -/
def RequestLine10 (requestLine : Bytes) : Prop :=
  ∃ method target, (stripSuffix crlf requestLine).map (·.splitOn 32) =
    some [method, target, ascii "HTTP/1.0"]

/-- The response of HTTP/1.0 has no body, or one with a length. -/
def Delimited10 (statusLine headerSection : Bytes) (requestMethod : Method) : Prop :=
  ∃ remainder status headers, splitStatusLine statusLine = some (.http10, remainder) ∧
    parseStatus remainder = some status ∧ parseFields headerSection = .ok headers ∧
      (bodyAllowed requestMethod status = false ∨ headers.getAll .contentLength ≠ [])

/-- An interim response that goes on to the client, and that asks for the connection's end. -/
def InterimCloses (statusLine headerSection : Bytes) : Prop :=
  ∃ version remainder status headers, splitStatusLine statusLine = some (version, remainder) ∧
    parseStatus remainder = some status ∧ status.isInformational = true ∧
      status ≠ StatusCode.switchingProtocols ∧ parseFields headerSection = .ok headers ∧
        (connectionNominations headers).isSome = true ∧ HasOption headers (ascii "close")

section

variable {firstLine headerSection : Bytes} {requestMethod : Method}

omit [HttpCrate] in
theorem parseVersion_http10 {version : Bytes} :
    parseVersion version = .ok .http10 ↔ version = ascii "HTTP/1.0" := by
  unfold parseVersion
  split
  · rename_i h
    exact iff_of_true rfl h
  · rename_i h
    refine iff_of_false (fun h => ?_) h
    split at h
    · cases h
    split at h <;> cases h

omit [HttpCrate] in
theorem invalidOrigin_eq_ok {α : Type} {result : Except IngressError α} {a : α}
    (h : invalidOrigin result = .ok a) : result = .ok a := by
  cases result with
  | error error => cases h
  | ok a' => exact congrArg Except.ok (Except.ok.inj h)

/-- What an accepted head of a response is made of. -/
theorem parseOriginResponseHead_eq_ok {head : OriginResponseHead}
    (h : parseOriginResponseHead firstLine headerSection requestMethod = .ok head) :
    ∃ remainder length tokens, splitStatusLine firstLine = some (head.version, remainder) ∧
      parseStatus remainder = some head.status ∧ parseFields headerSection = .ok head.headers ∧
      parseContentLength head.headers = .ok length ∧
      (head.version = .http10 → head.transferCoding = .absent) ∧
      commaTokens head.headers .connection = .ok tokens ∧
      originFraming requestMethod head.status head.transferCoding length
        (closesAfter head.version tokens) = (head.framing, head.close) := by
  unfold parseOriginResponseHead at h
  simp only [bind, Except.bind, throw, throwThe, MonadExceptOf.throw, pure, Except.pure] at h
  split at h
  · rename_i version remainder hline
    split at h
    · rename_i status hstatus
      split at h
      · cases h
      rename_i headers hheaders
      split at h
      · cases h
      rename_i length hlength
      split at h
      · cases h
      rename_i coding hcoding
      split at h
      · cases h
      rename_i hcoded
      split at h
      · cases h
      split at h
      · cases h
      split at h
      · cases h
      rename_i tokens htokens
      obtain rfl := Except.ok.inj h
      refine ⟨remainder, length, tokens, hline, hstatus, invalidOrigin_eq_ok hheaders,
        invalidOrigin_eq_ok hlength, fun hversion => ?_, invalidOrigin_eq_ok htokens, rfl⟩
      exact not_not.mp fun hne => hcoded ⟨hversion, hne⟩
    · cases h
  · cases h

omit [HttpCrate] in
/-- A body ends with the connection when nothing else ends it. -/
theorem originFraming_cases (requestMethod : Method) (status : StatusCode)
    (coding : OriginTransferCoding) (length : Option ℕ) (close : Bool) :
    let framing := originFraming requestMethod status coding length close
    framing.1 ≠ .closeDelimited ∧ framing.2 = close ∧
        (coding = .absent → bodyAllowed requestMethod status = false ∨ length ≠ none) ∨
      framing.1 = .closeDelimited ∧ framing.2 = true ∧
        bodyAllowed requestMethod status = true ∧ (coding = .absent → length = none) := by
  have hallowed : bodyAllowed requestMethod status = !(requestMethod = Method.head ||
      status.isInformational || status = StatusCode.noContent || status = StatusCode.notModified) := by
    rw [bodyAllowed, Bool.eq_iff_iff]
    simp
  intro framing
  simp only [framing, originFraming]
  split
  · rename_i hbodyless
    refine .inl ⟨OriginBodyFraming.noConfusion, rfl, fun _ => .inl ?_⟩
    rw [hallowed, hbodyless]
    rfl
  · rename_i hbodied
    rw [Bool.not_eq_true] at hbodied
    rw [hallowed, hbodied]
    cases coding with
    | finalChunked hasPrior => exact .inl ⟨OriginBodyFraming.noConfusion, rfl, fun h => by cases h⟩
    | finalNonChunked => exact .inr ⟨rfl, rfl, rfl, fun h => by cases h⟩
    | absent =>
      cases length with
      | none => exact .inr ⟨rfl, rfl, rfl, fun _ => rfl⟩
      | some length =>
        exact .inl ⟨OriginBodyFraming.noConfusion, rfl, fun _ => .inr (Option.some_ne_none _)⟩

theorem requestMarked_iff {head : RequestHead} (h : parseHead firstLine headerSection = .ok head) :
    RequestMarked head ↔ ¬ (RequestLine10 firstLine ∧ Contradicts headerSection) := by
  obtain ⟨version, tokens, hline, hversion, hheaders, -, htokens, hclose⟩ := parseHead_eq_ok h
  have hasked := closesAfter_iff head.version htokens
  rw [← hclose] at hasked
  constructor
  · rintro hmarked ⟨⟨method, target, hline10⟩, headers, hheaders', hoptions, hkeep⟩
    obtain rfl := Except.ok.inj (hheaders.symm.trans hheaders')
    obtain rfl : version = ascii "HTTP/1.0" := by
      have hparts := Option.some.inj (hline.symm.trans hline10)
      simp only [List.cons.injEq, and_true] at hparts
      exact hparts.2.2
    have h10 := Except.ok.inj (hversion.symm.trans (parseVersion_http10.mpr rfl))
    rcases hasked.mp (hmarked.close hoptions).1 with ⟨-, hnot⟩ | ⟨h11, -⟩
    · exact hnot hkeep
    · rw [h10] at h11
      cases h11
  · intro hcondition
    have hmark (hoption : HasOption head.headers (ascii "close")) : head.close = true := by
      refine hasked.mpr ?_
      cases hv : head.version with
      | http11 => exact .inr ⟨rfl, hoption⟩
      | http10 =>
        refine .inl ⟨rfl, fun hkeep => hcondition ⟨?_, _, hheaders, hoption, hkeep⟩⟩
        rw [hv, parseVersion_http10] at hversion
        exact ⟨_, _, hversion ▸ hline⟩
    refine ⟨fun hoption => ⟨hmark hoption, fun _ => serveHttpRequest_of_close (hmark hoption),
      connectEnds_of_close (hmark hoption)⟩, fun hv hkeep => hasked.mpr (.inl ⟨hv, hkeep⟩),
      fun hmarked => ?_⟩
    rcases hasked.mp hmarked with h10 | ⟨-, hoption⟩
    · exact .inr h10
    · exact .inl hoption

/-- A client of HTTP/1.1 gets every head whose nominations are names. -/
theorem forwardResponseHead_isSome {response : OriginResponseHead}
    (hstatus : response.status ≠ StatusCode.switchingProtocols)
    (hnominations : (connectionNominations response.headers).isSome = true) :
    (forwardResponseHead .http11 response).isSome = true := by
  obtain ⟨nominations, hnominations⟩ := Option.isSome_iff_exists.mp hnominations
  rw [forwardResponseHead, if_neg hstatus, sanitizeHopByHop, hnominations]
  rfl

omit [HttpCrate] in
/-- A response without content has no body. -/
theorem originFraming_noContent (requestMethod : Method) (close : Bool) :
    originFraming requestMethod StatusCode.noContent .absent none close = (.none, close) := by
  unfold originFraming
  rw [if_pos (by simp)]

/-- The head of a response without fields and content. -/
theorem parseOriginResponseHead_plain (requestMethod : Method) :
    parseOriginResponseHead (ascii "HTTP/1.1 204 No Content" ++ crlf) crlf requestMethod =
      .ok { version := .http11, status := StatusCode.noContent, headers := .empty, framing := .none,
            transferCoding := .absent, close := false } := by
  have hnone (name : HeaderName) : HeaderMap.empty.getAll name = [] := HttpCrate.getAll_empty name
  have hline : splitStatusLine (ascii "HTTP/1.1 204 No Content" ++ crlf) =
      some (.http11, ascii "204 No Content") := by decide +kernel
  have hstatus : parseStatus (ascii "204 No Content") = some StatusCode.noContent := by decide +kernel
  have hfields : parseFields crlf = .ok HeaderMap.empty := rfl
  have hlength : parseContentLength HeaderMap.empty = .ok none := by
    rw [parseContentLength, hnone]
    rfl
  have hmembers : transferCodings HeaderMap.empty = .ok [] := by
    rw [transferCodings, hnone]
    rfl
  have hcoding : parseOriginTransferEncoding HeaderMap.empty = .ok .absent := by
    rw [parseOriginTransferEncoding, hmembers]
    rfl
  have htokens : commaTokens HeaderMap.empty .connection = .ok [] := by
    rw [commaTokens, hnone]
    rfl
  have hframing := originFraming_noContent requestMethod (closesAfter .http11 [])
  simp only [parseOriginResponseHead, hline, hstatus, hfields, hlength, hcoding, htokens, invalidOrigin,
    Except.mapError, bind, Except.bind, hframing]
  rfl

/-- There is a final response after which the connection is offered to the pool. -/
theorem exists_plain_final (requestMethod : Method) : ∃ final : OriginResponseHead,
    final.Accepted requestMethod ∧ bodyPoolable .http11 true [final] = true := by
  refine ⟨_, ⟨_, _, parseOriginResponseHead_plain requestMethod⟩, ?_⟩
  have hnominations : connectionNominations HeaderMap.empty = some [] := by
    have hnone : HeaderMap.empty.getAll .connection = [] := HttpCrate.getAll_empty _
    rw [connectionNominations, hnone]
    rfl
  have hstatus : StatusCode.noContent ≠ StatusCode.switchingProtocols := by decide
  rw [bodyPoolable, if_neg]
  · rfl
  · rw [Bool.not_eq_true, Option.isNone_eq_false_iff]
    exact forwardResponseHead_isSome hstatus (by rw [hnominations]; rfl)

omit [HttpCrate] in
/-- A pool stores what is offered to it after a body. -/
theorem exists_finishOrigin_ne : ∃ (pool : PublicPool) (key : OriginKey)
    (origin : HttpOrigin PublicStream), finishOrigin pool key origin true 0 0 ≠ pool := by
  let key : OriginKey := { host := .ip (.v4 (.mk 0)), ipv6Scope := none, port := ⟨80, by decide⟩ }
  let origin : HttpOrigin PublicStream := .new { address := .v4 (.mk 0), port := ⟨80, by decide⟩, id := 0 }
  refine ⟨.new, key, origin, fun h => ?_⟩
  have hsequence := congrArg IdlePool.nextSequence h
  cases hsequence

/-- The mark of an accepted response head: its own reasons, and an end that only the connection gives. -/
structure OriginResponseHead.Marks (head : OriginResponseHead) : Prop where
  http10 : head.version = .http10 → ¬ HasOption head.headers (ascii "keep-alive") → head.close = true
  only : head.close = true → Asked head.version head.headers ∨ head.framing = .closeDelimited

theorem marks_of_parse {head : OriginResponseHead}
    (h : parseOriginResponseHead firstLine headerSection requestMethod = .ok head) : head.Marks := by
  obtain ⟨-, length, tokens, -, -, -, -, -, htokens, hframing⟩ := parseOriginResponseHead_eq_ok h
  have hasked := closesAfter_iff head.version htokens
  have hcases := originFraming_cases requestMethod head.status head.transferCoding length
    (closesAfter head.version tokens)
  rw [hframing] at hcases
  simp only at hcases
  refine ⟨fun hv hkeep => ?_, fun hmarked => ?_⟩
  · rcases hcases with ⟨-, hsame, -⟩ | ⟨-, hclose, -, -⟩
    · rw [hsame, hasked]
      exact .inl ⟨hv, hkeep⟩
    · exact hclose
  · rcases hcases with ⟨-, hsame, -⟩ | ⟨hdelimited, -, -, -⟩
    · rw [hsame, hasked] at hmarked
      rcases hmarked with h10 | ⟨-, hoption⟩
      · exact .inl (.inr h10)
      · exact .inl (.inl hoption)
    · exact .inr hdelimited

/-- A `close` marks a response head unless HTTP/1.0 is asked for both and the body ends by itself. -/
theorem close_of_option_iff {head : OriginResponseHead}
    (h : parseOriginResponseHead firstLine headerSection requestMethod = .ok head) :
    (HasOption head.headers (ascii "close") → head.close = true) ↔
      ¬ (Delimited10 firstLine headerSection requestMethod ∧ Contradicts headerSection) := by
  obtain ⟨remainder, length, tokens, hline, hstatus, hheaders, hlength, hcoding, htokens, hframing⟩ :=
    parseOriginResponseHead_eq_ok h
  have hasked := closesAfter_iff head.version htokens
  have hcases := originFraming_cases requestMethod head.status head.transferCoding length
    (closesAfter head.version tokens)
  rw [hframing] at hcases
  simp only at hcases
  constructor
  · rintro hmarked ⟨⟨remainder', status, headers, hline10, hstatus', hheaders', hends⟩, headers',
      hheaders'', hoption, hkeep⟩
    obtain rfl := Except.ok.inj (hheaders.symm.trans hheaders')
    obtain rfl := Except.ok.inj (hheaders.symm.trans hheaders'')
    obtain ⟨h10, rfl⟩ := Prod.mk.inj (Option.some.inj (hline.symm.trans hline10))
    obtain rfl := Option.some.inj (hstatus.symm.trans hstatus')
    have hclose := hmarked hoption
    rcases hcases with ⟨-, hsame, -⟩ | ⟨-, -, hallowed, hnone⟩
    · rw [hsame, hasked] at hclose
      rcases hclose with ⟨-, hnot⟩ | ⟨h11, -⟩
      · exact hnot hkeep
      · rw [h10] at h11
        cases h11
    · rcases hends with hbodyless | hpresent
      · rw [hallowed] at hbodyless
        cases hbodyless
      · rw [hnone (hcoding h10), parseContentLength_none] at hlength
        exact hpresent hlength
  · intro hcondition hoption
    rcases hcases with ⟨-, hsame, hdelimited⟩ | ⟨-, hclose, -, -⟩
    · rw [hsame, hasked]
      cases hv : head.version with
      | http11 => exact .inr ⟨rfl, hoption⟩
      | http10 =>
        refine .inl ⟨rfl, fun hkeep => hcondition ⟨⟨remainder, head.status, head.headers, ?_, hstatus,
          hheaders, ?_⟩, _, hheaders, hoption, hkeep⟩⟩
        · rw [hline, hv]
        · refine (hdelimited (hcoding hv)).imp_right fun hsome hnil => hsome ?_
          exact Except.ok.inj (hlength.symm.trans ((parseContentLength_none _).mpr hnil))
    · exact hclose

/-- The pool is not offered a connection after a marked head, unless the head is interim and goes on. -/
theorem bodyPoolable_eq_false {head : OriginResponseHead} (hclose : head.close = true)
    (hnot : head.status.isInformational = true → head.status ≠ StatusCode.switchingProtocols →
      (connectionNominations head.headers).isSome = true → False)
    (later : List OriginResponseHead) (version : Version) (requestComplete : Bool) :
    bodyPoolable version requestComplete (head :: later) = false := by
  unfold bodyPoolable
  split
  · rfl
  · rename_i hforward
    split
    · rename_i hinterim
      rw [Option.isNone_iff_eq_none] at hforward
      obtain ⟨⟨headers, nominations⟩, hforward⟩ := Option.ne_none_iff_exists'.mp hforward
      obtain ⟨h101, hnominations, -⟩ := forwardResponseHead_eq_some hforward
      exact (hnot hinterim h101 (Option.isSome_iff_exists.mpr ⟨nominations, hnominations⟩)).elim
    · rw [poolable, hclose, Bool.not_true, Bool.and_false, Bool.false_and]

theorem responseMarked_iff {head : OriginResponseHead}
    (h : parseOriginResponseHead firstLine headerSection requestMethod = .ok head) :
    ResponseMarked requestMethod head ↔
      ¬ (Delimited10 firstLine headerSection requestMethod ∧ Contradicts headerSection ∨
        InterimCloses firstLine headerSection) := by
  obtain ⟨remainder, -, -, hline, hstatus, hheaders, -⟩ := parseOriginResponseHead_eq_ok h
  rw [not_or, ← close_of_option_iff h]
  constructor
  · refine fun hmarked => ⟨fun hoption => (hmarked.close hoption).1, ?_⟩
    rintro ⟨version, remainder', status, headers, hline', hstatus', hinterim, h101, hheaders',
      hnominations, hoption⟩
    obtain rfl := Except.ok.inj (hheaders.symm.trans hheaders')
    obtain ⟨-, rfl⟩ := Prod.mk.inj (Option.some.inj (hline.symm.trans hline'))
    obtain rfl := Option.some.inj (hstatus.symm.trans hstatus')
    -- A plain final head after the interim one decides for the pool.
    obtain ⟨final, haccepted, hpoolable⟩ := exists_plain_final requestMethod
    obtain ⟨pool, key, origin, hne⟩ := exists_finishOrigin_ne
    have hkept := (hmarked.close hoption).2 [final] (by simpa using haccepted) .http11 true pool key
      origin 0 0
    have hforward := forwardResponseHead_isSome h101 hnominations
    have hoffered : bodyPoolable .http11 true (head :: [final]) = true := by
      rw [← List.singleton_append, bodyPoolable_append true (by simp [hinterim, hforward]), hpoolable]
    rw [hoffered] at hkept
    exact hne hkept
  · rintro ⟨hmark, hfinal⟩
    have hmarks := marks_of_parse h
    refine ⟨fun hoption => ⟨hmark hoption, ?_⟩, hmarks.http10, hmarks.only⟩
    intro later _ version requestComplete pool key origin now stored
    have hnot := bodyPoolable_eq_false (hmark hoption)
      (fun hinterim h101 hnominations => hfinal ⟨_, _, _, _, hline, hstatus, hinterim, h101, hheaders,
        hnominations, hoption⟩) later version requestComplete
    rw [finishOrigin, hnot]
    rfl

end

/-- **The marks are right and heeded exactly when HTTP/1.0 is not asked for both**, to close after the
message and to keep the connection, and a response that asks for the end is not an interim one. A response
whose body ends with the connection is marked even when HTTP/1.0 is asked for both. -/
theorem persistence_iff (firstLine headerSection : Bytes) (requestMethod : Method) :
    (∀ head, parseHead firstLine headerSection = .ok head →
      (RequestMarked head ↔ ¬ (RequestLine10 firstLine ∧ Contradicts headerSection))) ∧
    ∀ head, parseOriginResponseHead firstLine headerSection requestMethod = .ok head →
      (ResponseMarked requestMethod head ↔
        ¬ (Delimited10 firstLine headerSection requestMethod ∧ Contradicts headerSection ∨
          InterimCloses firstLine headerSection)) :=
  ⟨fun _ => requestMarked_iff, fun _ => responseMarked_iff⟩

omit [HttpCrate] in
/-- A request of HTTP/1.0 with `Connection: keep-alive, close` is not marked. -/
theorem close_ignored : ¬ ∀ (_ : HttpCrate) (firstLine headerSection : Bytes) (head : RequestHead),
    parseHead firstLine headerSection = .ok head → RequestMarked head := by
  intro h
  let _ := HttpCrate.reference
  let requestLine : Bytes := ascii "GET http://a.b/ HTTP/1.0" ++ crlf
  let headerSection : Bytes := ascii "Connection: keep-alive, close" ++ crlf ++ crlf
  have heval : (parseHead requestLine headerSection).toOption.any (fun head => !head.close &&
      (commaTokens head.headers .connection).toOption.any
        (·.any (eqIgnoreCase · (ascii "close")))) = true := by
    decide +kernel
  obtain ⟨head, hhead, hplain⟩ := (Option.any_eq_true _ _).mp heval
  rw [Bool.and_eq_true, Bool.not_eq_true'] at hplain
  obtain ⟨hclose, hoption⟩ := hplain
  obtain ⟨tokens, htokens, hoption⟩ := (Option.any_eq_true _ _).mp hoption
  have hmarked := h _ requestLine headerSection head (toOption_eq_some hhead)
  rw [(hmarked.close ((hasOption_iff (toOption_eq_some htokens)).mp hoption)).1] at hclose
  cases hclose

end Vhrn.Proxy
