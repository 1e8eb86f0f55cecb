import Vhrn.Foundations.Feed
import Vhrn.Proxy.Domain.Loopback

/-!
# The broker protocol on the side of the proxy

A connection to the broker begins with one line of the proxy, which holds the capability token, and one
line of the broker. The line of the proxy always fits its bound (`frame_ready`, `frame_connect`). The
answer is read into a buffer of four octets, so an octet behind it may be read along: a `BrokerStream`
keeps it and delivers it first. `readResponse_spec` says when an answer is a success, and
`BrokerStream.delivers` that nothing behind it is lost, whatever pieces the octets arrive in.
-/

namespace Vhrn.Proxy

/-! ## Tokens and frames -/

def brokerTokenByte (byte : UInt8) : Bool := Ascii.isDigit byte || decide (97 ≤ byte ∧ byte ≤ 102)

/-- The capability token of a run. -/
structure BrokerToken where
  text : Bytes
  length : text.length = 64
  bytes : text.all brokerTokenByte = true

def BrokerToken.fromStr (value : Bytes) : Option BrokerToken :=
  if h : value.length = 64 ∧ value.all brokerTokenByte = true then some ⟨value, h.1, h.2⟩ else none

inductive BrokerError
  | rejected
  | unavailable
  | deadlineExceeded
  | cancelled
  | originFailure
  | exhausted
  deriving DecidableEq, Repr

def maxFrameBytes : ℕ := 256

def maxResponseBytes : ℕ := 4

/-- A line of the proxy; `none` when the assertion of its bound fails. -/
def frame (token : BrokerToken) (verb : Bytes) (authority : Option Bytes) : Option Bytes :=
  let frame := verb ++ token.text ++ (authority.elim [] fun value => 32 :: value) ++ [10]
  if frame.length ≤ maxFrameBytes then some frame else none

def readyFrame (token : BrokerToken) : Option Bytes := frame token (ascii "VHRN-BROKER/1 READY ") none

def connectFrame (token : BrokerToken) (authority : LoopbackAuthority) : Option Bytes :=
  frame token (ascii "VHRN-BROKER/1 CONNECT ") (some authority.display)

theorem frame_ready (token : BrokerToken) :
    readyFrame token = some (ascii "VHRN-BROKER/1 READY " ++ token.text ++ [10]) := by
  unfold readyFrame frame
  rw [Option.elim_none, List.append_nil, if_pos]
  rw [List.length_append, List.length_append, token.length]
  decide

theorem length_decimal_le {n k : ℕ} (h : n < 10 ^ k) (hk : 1 ≤ k) :
    (Numerals.decimal n).length ≤ k := by
  unfold Numerals.decimal Numerals.numeral
  split
  · exact hk
  · rw [List.length_reverse, List.length_map]
    exact (Nat.digits_length_le_iff (by omega) n).mpr h

theorem length_display_le (authority : LoopbackAuthority) : authority.display.length ≤ 21 := by
  have hport : authority.port.display.length ≤ 5 :=
    length_decimal_le (authority.port.number.toNat_lt.trans (by norm_num)) (by omega)
  have hoctet (n : UInt8) : (Numerals.decimal n.toNat).length ≤ 3 :=
    length_decimal_le (n.toNat_lt.trans (by norm_num)) (by omega)
  have hhost : authority.host.display.length ≤ 15 := by
    cases authority.host with
    | localhost => decide
    | ipv4 octets _ =>
      have ha := hoctet octets.a
      have hb := hoctet octets.b
      have hc := hoctet octets.c
      have hd := hoctet octets.d
      simp only [LoopbackHost.display, Octets.display, List.length_append, List.length_cons]
      omega
    | ipv6Loopback => decide
  unfold LoopbackAuthority.display
  rw [List.length_append, List.length_cons]
  omega

theorem frame_connect (token : BrokerToken) (authority : LoopbackAuthority) :
    connectFrame token authority = some (ascii "VHRN-BROKER/1 CONNECT " ++ token.text ++
      32 :: authority.display ++ [10]) := by
  have hlength := length_display_le authority
  unfold connectFrame frame
  rw [Option.elim_some, if_pos]
  have hverb : (ascii "VHRN-BROKER/1 CONNECT ").length = 22 := by decide
  simp only [List.length_append, List.length_cons, List.length_nil, token.length, hverb, maxFrameBytes]
  omega

/-! ## The answer -/

/-- The line of a success. -/
def success : Bytes := ascii "OK" ++ [10]

/-- What the octets of an answer that are there decide. -/
def responseScan (bytes : Bytes) : Option Bool :=
  if bytes.take 3 = success then some true
  else if !bytes.isPrefixOf success || bytes.length == maxResponseBytes then some false
  else none

/-- A stream of the broker, with the octets that were read with the answer. -/
structure BrokerStream where
  stream : Feed UInt8
  retained : Bytes

/-- Reads the answer to a frame into a buffer of four octets. -/
def readResponse (stream : Feed UInt8) : Except BrokerError BrokerStream :=
  match Source.fill responseScan maxResponseBytes (maxResponseBytes - ·) ⟨[], stream⟩ with
  | (.decided true, s) => .ok ⟨s.incoming, s.buffered.drop 3⟩
  | _ => .error .rejected

theorem responseScan_eq_true {p : Bytes} : responseScan p = some true ↔ success <+: p := by
  have htake : p.take 3 = success ↔ success <+: p := by
    rw [List.prefix_iff_eq_take, eq_comm]
    rfl
  unfold responseScan
  rw [← htake]
  split
  · simp only [*]
  · rename_i h
    split <;> simp [h]

theorem responseScan_eq_false {p : Bytes} :
    responseScan p = some false ↔ ¬ success <+: p ∧ (¬ p <+: success ∨ p.length = maxResponseBytes) := by
  have htake : p.take 3 = success ↔ success <+: p := by
    rw [List.prefix_iff_eq_take, eq_comm]
    rfl
  unfold responseScan
  rw [← htake]
  split
  · simp only [*]
    simp
  · rename_i h
    simp only [h, not_false_eq_true, true_and]
    by_cases hp : p <+: success
    · simp [List.isPrefixOf_iff_prefix.mpr hp, hp]
    · simp [hp, List.isPrefixOf_iff_prefix]

theorem stable_responseScan : Stable responseScan := by
  intro p q r h
  cases r with
  | true => exact responseScan_eq_true.mpr ((responseScan_eq_true.mp h).trans (List.prefix_append p q))
  | false =>
    obtain ⟨hfail, hshort⟩ := responseScan_eq_false.mp h
    have hlen : success.length = 3 := rfl
    have hlonger : ¬ p <+: success := by
      rcases hshort with hshort | hfour
      · exact hshort
      · intro hp
        have := hp.length_le
        unfold maxResponseBytes at hfour
        omega
    refine responseScan_eq_false.mpr ⟨fun hsuccess => ?_, .inl fun hprefix => ?_⟩
    · rcases List.prefix_or_prefix_of_prefix hsuccess (List.prefix_append p q) with h | h
      · exact hfail h
      · exact hlonger h
    · exact hlonger ((List.prefix_append p q).trans hprefix)

/-- **An answer is a success exactly when the stream starts with the line of a success**, and then what
is still to be delivered is what follows that line. -/
theorem readResponse_spec (stream : Feed UInt8) :
    (∃ opened, readResponse stream = .ok opened ∧
        opened.retained ++ opened.stream.content = stream.content.drop 3 ∧ success <+: stream.content) ∨
      (readResponse stream = .error .rejected ∧ ¬ success <+: stream.content) := by
  have hroom : Source.RoomWithin (maxResponseBytes - ·) maxResponseBytes := by
    intro k hk
    show 1 ≤ maxResponseBytes - k ∧ k + (maxResponseBytes - k) ≤ maxResponseBytes
    omega
  have hfst := Source.fill_fst stable_responseScan hroom (s := ⟨[], stream⟩) (Nat.zero_le _)
  have hcontent : (Source.fill responseScan maxResponseBytes (maxResponseBytes - ·) ⟨[], stream⟩).2.content =
      Source.content ⟨[], stream⟩ := Source.content_fill _
  have hscan := @Source.scan_fill _ _ responseScan maxResponseBytes (maxResponseBytes - ·) ⟨[], stream⟩
  unfold readResponse
  generalize Source.fill responseScan maxResponseBytes (maxResponseBytes - ·) ⟨[], stream⟩ = filled at *
  have hwhole : Source.content ⟨[], stream⟩ = stream.content := rfl
  rw [hwhole] at hfst hcontent
  by_cases hsuccess : success <+: stream.content
  · have hdecided : filled.1 = .decided true := by
      have htake : success <+: stream.content.take maxResponseBytes :=
        List.prefix_take_iff.mpr ⟨hsuccess, by decide⟩
      rw [hfst, Fill.ofContent, responseScan_eq_true.mpr htake]
    obtain ⟨o, s⟩ := filled
    obtain rfl : o = .decided true := hdecided
    have hbuffered := responseScan_eq_true.mp (hscan rfl)
    refine .inl ⟨_, rfl, ?_, hsuccess⟩
    show s.buffered.drop 3 ++ s.incoming.content = _
    rw [← hcontent]
    exact (List.drop_append_of_le_length hbuffered.length_le).symm
  · refine .inr ⟨?_, hsuccess⟩
    obtain ⟨o, s⟩ := filled
    split
    · rename_i heq
      obtain ⟨rfl, -⟩ := Prod.mk.inj heq
      have hbuffered := responseScan_eq_true.mp (hscan rfl)
      refine absurd ?_ hsuccess
      rw [← hcontent]
      exact hbuffered.trans (List.prefix_append _ _)
    · rfl

/-- At most one octet is read with the answer. -/
theorem length_retained_le {stream : Feed UInt8} {opened : BrokerStream}
    (h : readResponse stream = .ok opened) : opened.retained.length ≤ 1 := by
  have hroom : Source.RoomWithin (maxResponseBytes - ·) maxResponseBytes := by
    intro k hk
    show 1 ≤ maxResponseBytes - k ∧ k + (maxResponseBytes - k) ≤ maxResponseBytes
    omega
  have hlength := @Source.length_fill_le _ _ responseScan _ _ hroom ⟨[], stream⟩ (Nat.zero_le _)
  unfold readResponse at h
  split at h
  · rename_i s heq
    obtain rfl := Except.ok.inj h
    rw [heq] at hlength
    have hfour : maxResponseBytes = 4 := rfl
    simp only at hlength
    rw [List.length_drop]
    omega
  · cases h

/-! ## What a broker stream delivers -/

namespace BrokerStream

/-- Everything that is still to be delivered. -/
def content (s : BrokerStream) : Bytes := s.retained ++ s.stream.content

/-- One read with room for `n` octets: of what was retained, then of the stream. -/
def read (s : BrokerStream) (n : ℕ) : Bytes × BrokerStream :=
  if n = 0 then ([], s)
  else if s.retained ≠ [] then
    let count := min n s.retained.length
    (s.retained.take count, { s with retained := s.retained.drop count })
  else ((s.stream.read n).1, { s with stream := (s.stream.read n).2 })

/-- Takes what was retained, for the hand-over to a tunnel. -/
def takePrefix (s : BrokerStream) : Bytes × BrokerStream := (s.retained, { s with retained := [] })

/-- Successive reads with room for so many octets each. -/
def reads (s : BrokerStream) : List ℕ → Bytes × BrokerStream
  | [] => ([], s)
  | n :: ns =>
    let rest := (s.read n).2.reads ns
    ((s.read n).1 ++ rest.1, rest.2)

theorem read_append (s : BrokerStream) (n : ℕ) : (s.read n).1 ++ (s.read n).2.content = s.content := by
  unfold read content
  split
  · rfl
  · split
    · rw [← List.append_assoc, List.take_append_drop]
    · rename_i hempty
      rw [not_not.mp hempty]
      exact Feed.read_append s.stream n

theorem read_eq_nil {s : BrokerStream} {n : ℕ} (hn : 1 ≤ n) (h : (s.read n).1 = []) : s.content = [] := by
  unfold read at h
  rw [if_neg (by omega)] at h
  split at h
  · rename_i hretained
    have hpos := List.length_pos_of_ne_nil hretained
    have hlen := congrArg List.length h
    simp only [List.length_take, List.length_nil] at hlen
    omega
  · rename_i hempty
    rw [content, not_not.mp hempty, Feed.read_eq_nil hn h]
    rfl

/-- **Reads deliver everything in order.** -/
theorem reads_append (s : BrokerStream) (ns : List ℕ) :
    (s.reads ns).1 ++ (s.reads ns).2.content = s.content := by
  induction ns generalizing s with
  | nil => rfl
  | cons n ns ih =>
    show (s.read n).1 ++ ((s.read n).2.reads ns).1 ++ _ = s.content
    rw [List.append_assoc]
    show (s.read n).1 ++ (((s.read n).2.reads ns).1 ++ ((s.read n).2.reads ns).2.content) = s.content
    rw [ih, read_append]

/-- Whatever reads are made, what they deliver is a beginning of the octets, and a read with room delivers
nothing only when all of them have been delivered. -/
structure Delivers (s : BrokerStream) (bytes : Bytes) : Prop where
  beginning : ∀ ns, (s.reads ns).1 <+: bytes
  all : ∀ ns n, 1 ≤ n → ((s.reads ns).2.read n).1 = [] → (s.reads ns).1 = bytes

theorem delivers (s : BrokerStream) : s.Delivers s.content where
  beginning ns := ⟨_, s.reads_append ns⟩
  all ns n hn h := by
    have happ := s.reads_append ns
    rwa [read_eq_nil hn h, List.append_nil] at happ

end BrokerStream

end Vhrn.Proxy
