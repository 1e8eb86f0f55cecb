import Vhrn.Foundations.Words
import Vhrn.Proxy.Diagnostics

/-!
# The denial log

A denial record appends one line to the log: the time in UTC, a tab and the destination. What an append
leaves in the file is the environment's: the whole line, or, when it fails, any beginning of it. A time
is plain text with a capital letter (`rfc3339_byte`, `mem_rfc3339`) and a destination plain text without
one (`DenialDestination.Built.byte`), so no part of a time is ever taken for a destination.
-/

namespace Vhrn.Proxy

/-! ## Times -/

structure CivilTime where
  year : ℤ
  month : ℤ
  day : ℤ
  hour : ℕ
  minute : ℕ
  second : ℕ

/-- The date and time of so many seconds after the epoch. -/
def civilTime (seconds : ℕ) : CivilTime :=
  let days : ℤ := seconds / 86400
  let z := days + 719468
  let era := (if 0 ≤ z then z else z - 146096).tdiv 146097
  let doe := z - era * 146097
  let yoe := (doe - doe.tdiv 1460 + doe.tdiv 36524 - doe.tdiv 146096).tdiv 365
  let year := yoe + era * 400
  let doy := doe - (365 * yoe + yoe.tdiv 4 - yoe.tdiv 100)
  let mp := (5 * doy + 2).tdiv 153
  let day := doy - (153 * mp + 2).tdiv 5 + 1
  let month := mp + if mp < 10 then 3 else -9
  let time := seconds % 86400
  { year := year + if month ≤ 2 then 1 else 0
    month
    day
    hour := time / 3600
    minute := time / 60 % 60
    second := time % 60 }

/-- A number with zeros in front up to a width. -/
def padded (width n : ℕ) : Bytes :=
  List.replicate (width - (Numerals.decimal n).length) 48 ++ Numerals.decimal n

/-- A signed number with zeros in front up to a width. -/
def paddedInt (width : ℕ) (n : ℤ) : Bytes :=
  if n < 0 then 45 :: padded (width - 1) n.natAbs else padded width n.natAbs

def rfc3339 (seconds : ℕ) : Bytes :=
  let t := civilTime seconds
  paddedInt 4 t.year ++ 45 :: (paddedInt 2 t.month ++ 45 :: (paddedInt 2 t.day ++ 84 ::
    (padded 2 t.hour ++ 58 :: (padded 2 t.minute ++ 58 :: (padded 2 t.second ++ [90])))))

example : rfc3339 1767323045 = ascii "2026-01-02T03:04:05Z" := by decide

def renderDenial (timestamp : Bytes) (destination : DenialDestination) : Bytes :=
  timestamp ++ 9 :: (destination.value ++ [10])

theorem isDigit_of_mem_padded {width n : ℕ} {b : UInt8} (hb : b ∈ padded width n) :
    Ascii.isDigit b = true := by
  rcases List.mem_append.mp hb with h | h
  · rw [List.eq_of_mem_replicate h]
    decide
  · exact Numerals.isDigit_of_mem_decimal h

/-- The octets of a time: digits, signs, colons and two letters. -/
def timeByte (b : UInt8) : Bool := Ascii.isDigit b || b == 45 || b == 58 || b == 84 || b == 90

theorem rfc3339_byte {seconds : ℕ} {b : UInt8} (hb : b ∈ rfc3339 seconds) : timeByte b = true := by
  have hnat {width n : ℕ} (h : b ∈ padded width n) : timeByte b = true := by
    unfold timeByte
    rw [isDigit_of_mem_padded h]
    rfl
  have hint {width : ℕ} {n : ℤ} (h : b ∈ paddedInt width n) : timeByte b = true := by
    unfold paddedInt at h
    split at h
    · rcases List.mem_cons.mp h with rfl | h
      · decide
      · exact hnat h
    · exact hnat h
  simp only [rfc3339, List.mem_append, List.mem_cons, List.not_mem_nil, or_false] at hb
  rcases hb with h | rfl | h | rfl | h | rfl | h | rfl | h | rfl | h | rfl
  all_goals first | exact hint h | exact hnat h | decide

theorem plain_rfc3339 (seconds : ℕ) : Plain (rfc3339 seconds) := by
  intro b hb
  have h (b : UInt8) : timeByte b = true → plainByte b = true := by
    revert b; exact forall_byte (by decide +kernel)
  exact h b (rfc3339_byte hb)

/-- Every time has a capital letter. -/
theorem mem_rfc3339 (seconds : ℕ) : (84 : UInt8) ∈ rfc3339 seconds := by
  simp [rfc3339]

/-! ## Destinations -/

/-- The destinations that records are made of: a public host or a loopback authority. -/
inductive DenialDestination.Built : DenialDestination → Prop
  | host (host : PublicHost) : Built ⟨host.display⟩
  | authority (authority : LoopbackAuthority) : Built ⟨authority.display⟩

/-- The octets of a destination: plain, and no capital letters. -/
def destinationByte (b : UInt8) : Bool := plainByte b && !Ascii.isUpper b

theorem destinationByte_of_isDigit {b : UInt8} (h : Ascii.isDigit b = true) : destinationByte b = true := by
  have hall (b : UInt8) : Ascii.isDigit b = true → destinationByte b = true := by
    revert b; exact forall_byte (by decide +kernel)
  exact hall b h

theorem destinationByte_of_hexDigit {b : UInt8} (h : Ascii.isHexDigit b = true)
    (hl : Ascii.isUpper b = false) : destinationByte b = true := by
  have hall (b : UInt8) : Ascii.isHexDigit b = true → Ascii.isUpper b = false →
      destinationByte b = true := by
    revert b; exact forall_byte (by decide +kernel)
  exact hall b h hl

theorem Octets.display_destination {o : Octets} {b : UInt8} (hb : b ∈ o.display) :
    destinationByte b = true := by
  rcases Octets.display_byte hb with h | rfl
  · exact destinationByte_of_isDigit h
  · decide

theorem Ipv6Addr.display_destination {x : Ipv6Addr} {b : UInt8} (hb : b ∈ x.display) :
    destinationByte b = true := by
  have hsegments {chunk : List ℕ} (h : b ∈ Ipv6Addr.fmtSubslice chunk) : destinationByte b = true := by
    rcases mem_intercalate h with rfl | ⟨numeral, hnumeral, hb⟩
    · decide
    · obtain ⟨n, -, rfl⟩ := List.mem_map.mp hnumeral
      obtain ⟨d, hd, rfl⟩ := Numerals.mem_numeral (by decide) (by decide) hb
      exact destinationByte_of_hexDigit (Numerals.isHexDigit_digitByte d hd)
        (Numerals.isUpper_digitByte d hd)
  unfold Ipv6Addr.display at hb
  split at hb
  · rcases List.mem_append.mp hb with h | h
    · have hprefix : ∀ b ∈ ascii "::ffff:", destinationByte b = true := by decide +kernel
      exact hprefix b h
    · exact Octets.display_destination h
  · simp only at hb
    split at hb
    · rcases List.mem_append.mp hb with h | h
      · exact hsegments h
      · simp only [List.mem_cons] at h
        rcases h with rfl | rfl | h
        · decide
        · decide
        · exact hsegments h
    · exact hsegments hb

theorem Ipv6Addr.display_ne_nil (x : Ipv6Addr) : x.display ≠ [] := by
  have hsegments : Ipv6Addr.fmtSubslice x.segments ≠ [] := by
    obtain ⟨s, rest, hs⟩ : ∃ s rest, x.segments = s :: rest := ⟨_, _, rfl⟩
    have hne : Numerals.numeral 16 s ≠ [] := Numerals.numeral_ne_nil s
    rw [hs, Ipv6Addr.fmtSubslice, List.map_cons]
    cases rest with
    | nil => simpa using hne
    | cons next rest => simp [List.intercalate_cons_cons, hne]
  unfold Ipv6Addr.display
  split
  · simp [ascii]
  · simp only
    split
    · simp
    · exact hsegments

theorem DomainName.display_destination {name : DomainName} {b : UInt8} (hb : b ∈ name.display) :
    destinationByte b = true := by
  have hvalid := name.valid
  simp only [validDomain, Bool.and_eq_true, List.all_eq_true] at hvalid
  have hlower : Ascii.isUpper b = false := by
    have hb' : b ∈ lower name.text := by
      rw [name.lowercase]
      exact hb
    obtain ⟨c, -, rfl⟩ := List.mem_map.mp hb'
    exact Ascii.isUpper_toLower c
  have hjoin : [46].intercalate (labels name.text) = name.text := List.intercalate_splitOn 46
  rw [DomainName.display, ← hjoin] at hb
  rcases mem_intercalate hb with rfl | ⟨label, hlabel, hb⟩
  · decide
  · have hall := hvalid.2 label hlabel
    simp only [validLabel, Bool.and_eq_true, List.all_eq_true] at hall
    have h (b : UInt8) : (Ascii.isAlnum b || b == 45) = true → Ascii.isUpper b = false →
        destinationByte b = true := by
      revert b; exact forall_byte (by decide +kernel)
    exact h b (hall.2 b hb) hlower

theorem DenialDestination.Built.byte {destination : DenialDestination} (h : destination.Built)
    {b : UInt8} (hb : b ∈ destination.value) : destinationByte b = true := by
  cases h with
  | host host =>
    cases host with
    | dns name => exact DomainName.display_destination hb
    | ip address =>
      cases address with
      | v4 address => exact Octets.display_destination hb
      | v6 address => exact Ipv6Addr.display_destination hb
  | authority authority =>
    have hall (b : UInt8) : isAuthorityByte b = true → destinationByte b = true := by
      revert b; exact forall_byte (by decide +kernel)
    exact hall b (LoopbackAuthority.display_byte hb)

theorem DenialDestination.Built.ne_nil {destination : DenialDestination} (h : destination.Built) :
    destination.value ≠ [] := by
  cases h with
  | host host =>
    cases host with
    | dns name =>
      intro hnil
      have hvalid := name.valid
      rw [show name.text = [] from hnil] at hvalid
      exact absurd hvalid (by decide)
    | ip address =>
      cases address with
      | v4 address => simp [PublicHost.display, IpAddr.display, Ipv4Addr.display, Octets.display]
      | v6 address => exact Ipv6Addr.display_ne_nil address
  | authority authority => exact authority.display_ne_nil

theorem DenialDestination.built_ofPublic (target : PublicTarget) : (ofPublic target).Built :=
  .host target.host

theorem DenialDestination.built_ofLocal (target : LocalTarget) : (ofLocal target).Built :=
  .authority target.canonicalAuthority

/-! ## Records -/

/-- What an append does: it writes the line, or fails after so many octets of it. -/
inductive Append
  | whole
  | fails (written : ℕ)
  deriving DecidableEq

/-- A denial-record call, with what it meets. -/
structure DenialCall where
  destination : DenialDestination
  built : destination.Built
  seconds : ℕ
  append : Append

def DenialCall.line (call : DenialCall) : Bytes := renderDenial (rfc3339 call.seconds) call.destination

/-- The octets of the line that reach the file. -/
def DenialCall.written (call : DenialCall) : Bytes :=
  match call.append with
  | .whole => call.line
  | .fails written => call.line.take written

/-- Records a denial: its result and the log it leaves. -/
def AuditService.record (audit : AuditService) (call : DenialCall) (log : Bytes) : AuditResult × Bytes :=
  match audit.path with
  | none => (.disabled, log)
  | some _ => (audit.result (call.append == .whole), log ++ call.written)

/-- The log after a sequence of calls on an empty one. -/
def AuditService.logAfter (audit : AuditService) (calls : List DenialCall) : Bytes :=
  calls.foldl (fun log call => (audit.record call log).2) []

/-- An append that fails after the tab that follows the time, and before the end of the line. -/
def DenialCall.Torn (call : DenialCall) : Prop :=
  ∃ written, call.append = .fails written ∧ (rfc3339 call.seconds).length < written ∧
    written < call.line.length

instance (call : DenialCall) : Decidable call.Torn :=
  match h : call.append with
  | .whole => isFalse fun ⟨_, hfails, _⟩ => by rw [h] at hfails; cases hfails
  | .fails written =>
    decidable_of_iff ((rfc3339 call.seconds).length < written ∧ written < call.line.length)
      ⟨fun hlt => ⟨written, h, hlt⟩, fun ⟨_, hfails, hlt⟩ => by
        obtain rfl := Append.fails.inj (h.symm.trans hfails)
        exact hlt⟩

/-- A call whose whole line reaches the file. -/
def DenialCall.complete (call : DenialCall) : Bool := call.written == call.line

theorem DenialCall.line_eq (call : DenialCall) :
    call.line = rfc3339 call.seconds ++ 9 :: (call.destination.value ++ [10]) := rfl

/-- What reaches the file: the whole line, a beginning of the time, or more than the time. -/
theorem DenialCall.written_cases (call : DenialCall) :
    (call.written = call.line ∧ call.complete = true ∧ ¬ call.Torn) ∨
      (∃ n, call.written = (rfc3339 call.seconds).take n ∧ call.complete = false ∧ ¬ call.Torn) ∨
      (∃ n, call.written = rfc3339 call.seconds ++ 9 :: call.destination.value.take n ∧ call.Torn) := by
  have hlength : call.line.length = (rfc3339 call.seconds).length + call.destination.value.length + 2 := by
    rw [line_eq, List.length_append, List.length_cons, List.length_append, List.length_singleton]
    omega
  cases happend : call.append with
  | whole =>
    have hwritten : call.written = call.line := by rw [written, happend]
    refine .inl ⟨hwritten, by rw [complete, hwritten, beq_self_eq_true], fun ⟨_, hfails, _⟩ => ?_⟩
    rw [happend] at hfails
    cases hfails
  | fails n =>
    have hwritten : call.written = call.line.take n := by rw [written, happend]
    have htorn : call.Torn ↔ (rfc3339 call.seconds).length < n ∧ n < call.line.length := by
      constructor
      · rintro ⟨m, hfails, hlt⟩
        obtain rfl := Append.fails.inj (happend.symm.trans hfails)
        exact hlt
      · exact fun hlt => ⟨n, happend, hlt⟩
    rcases Nat.lt_or_ge n call.line.length with hlt | hge
    · rcases Nat.lt_or_ge (rfc3339 call.seconds).length n with hafter | hbefore
      · obtain ⟨m, hm⟩ := Nat.exists_eq_add_of_lt hafter
        refine .inr (.inr ⟨m, ?_, htorn.mpr ⟨hafter, hlt⟩⟩)
        have hn : n - (rfc3339 call.seconds).length = m + 1 := by omega
        have hm' : m ≤ call.destination.value.length := by omega
        rw [hwritten, line_eq, List.take_append, List.take_of_length_le (Nat.le_of_lt hafter), hn,
          List.take_succ_cons, List.take_append_of_le_length hm']
      · refine .inr (.inl ⟨n, ?_, ?_, fun h => absurd (htorn.mp h).1 (Nat.not_lt.mpr hbefore)⟩)
        · rw [hwritten, line_eq, List.take_append_of_le_length hbefore]
        · rw [complete, beq_eq_false_iff_ne]
          intro heq
          have hle := congrArg List.length heq
          rw [hwritten, List.length_take] at hle
          omega
    · have hwhole : call.written = call.line := by rw [hwritten, List.take_of_length_le hge]
      refine .inl ⟨hwhole, by rw [complete, hwhole, beq_self_eq_true], fun h => ?_⟩
      exact absurd (htorn.mp h).2 (Nat.not_lt.mpr hge)

theorem AuditService.logAfter_concat (audit : AuditService) (calls : List DenialCall)
    (call : DenialCall) :
    audit.logAfter (calls ++ [call]) = (audit.record call (audit.logAfter calls)).2 :=
  List.foldl_concat _ _ _ _

/-- The log holds ASCII octets and no carriage returns. -/
theorem AuditService.byte_logAfter {audit : AuditService} {calls : List DenialCall} {b : UInt8}
    (hb : b ∈ audit.logAfter calls) : b < 128 ∧ b ≠ 13 := by
  induction calls using List.reverseRecOn with
  | nil => exact absurd hb List.not_mem_nil
  | append_singleton calls call ih =>
    rw [logAfter_concat, record] at hb
    split at hb
    · exact ih hb
    · rcases List.mem_append.mp hb with hb | hb
      · exact ih hb
      · have hline : b ∈ call.line := by
          rw [DenialCall.written] at hb
          split at hb
          · exact hb
          · exact List.mem_of_mem_take hb
        have hplain (b : UInt8) : plainByte b = true → b < 128 ∧ b ≠ 13 := by
          revert b; exact forall_byte (by decide +kernel)
        have hdestination (b : UInt8) : destinationByte b = true → b < 128 ∧ b ≠ 13 := by
          revert b; exact forall_byte (by decide +kernel)
        rw [DenialCall.line_eq, List.mem_append, List.mem_cons, List.mem_append, List.mem_singleton]
          at hline
        rcases hline with h | rfl | h | rfl
        · exact hplain b (plain_rfc3339 _ b h)
        · decide
        · exact hdestination b (call.built.byte h)
        · decide

end Vhrn.Proxy
