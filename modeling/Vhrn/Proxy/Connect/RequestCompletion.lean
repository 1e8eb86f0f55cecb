import Mathlib.Data.Prod.Lex
import Vhrn.Proxy.Connect.RequestEncoding

/-!
# When a request body is finished

An origin that takes something of every piece it is offered cannot keep the request half busy for ever
(`advances_wellFounded`), and a run that can take no more steps has one of three ends: the writer is
complete, the client's body has an error, or a piece that is empty is offered, of which nothing can be
taken. The only such piece is the empty value of a trailer, so `request_completes` says exactly when the
writer completes.
-/

namespace Vhrn.Proxy

open Relation

variable [HttpCrate]

/-! ## Steps of an origin that does its part -/

/-- The pieces that are queued after a state, up to the next frame. -/
def RequestState.pieces : RequestState → ℕ
  | .needFrame | .flush => 0
  | .chunkData _ => 2
  | .chunkEnd => 1
  | .trailerFields fields => 4 * fields.length + 1
  | .trailerValuePrefix _ fields => 3 + (4 * fields.length + 1)
  | .trailerValue _ fields => 2 + (4 * fields.length + 1)
  | .trailerLineEnd fields => 1 + (4 * fields.length + 1)

def RequestWriter.pieces (writer : RequestWriter) : ℕ :=
  match writer.pending with
  | some pending => pending.next.pieces
  | none => writer.state.pieces

namespace RequestHalf

/-- A step of the request half, where the origin takes something of the piece it is offered, and the
writer is flushed once. -/
inductive Advances : RequestHalf → RequestHalf → Prop
  | downstream {half half' : RequestHalf} (hwaiting : half.writer.waitingOnUpstream = false)
      (hstep : Step half half') : Advances half half'
  | upstream {writer writer' : RequestWriter} {source : Source UInt8} {pending : PendingWrite}
      {written : ℕ} (hpending : writer.pending = some pending)
      (hwritten : pending.offset + written ≤ pending.bytes.asBytes.length)
      (hstep : writer.stepUpstream written = .ok writer') :
      Advances ⟨writer, source⟩ ⟨writer', source⟩
  | flush {writer : RequestWriter} {source : Source UInt8} (hpending : writer.pending = none)
      (hstate : writer.state = .flush) (hdone : writer.complete = false) :
      Advances ⟨writer, source⟩ ⟨{ writer with complete := true }, source⟩

variable {start half half' : RequestHalf} {sent : Bytes} {writer writer' : RequestWriter}
  {source source' : Source UInt8}

/-! ## Runs end -/

/-- What a run uses up: the octets of the client; then what is left to write, and that a frame may still
be read; then the silent turns, the reads and the flush. -/
def potential (half : RequestHalf) : ℕ ×ₗ ℕ ×ₗ ℕ :=
  toLex (half.source.content.length,
    toLex ((if half.writer.isLast then 0 else 6) + half.writer.left.length + half.writer.pieces,
      2 * (BodyDecoder.rank half.writer.decoder.state * (half.source.content.length + 1) +
        half.source.incoming.content.length) + if half.writer.complete then 0 else 1))

omit [HttpCrate] in
theorem lex_lt {a a' b b' c c' : ℕ} (h : a' < a ∨ a' = a ∧ (b' < b ∨ b' = b ∧ c' < c)) :
    (toLex (a', toLex (b', c')) : ℕ ×ₗ ℕ ×ₗ ℕ) < toLex (a, toLex (b, c)) := by
  rw [Prod.Lex.toLex_lt_toLex, Prod.Lex.toLex_lt_toLex]
  exact h

omit [HttpCrate] in
theorem incoming_le_content (source : Source UInt8) :
    source.incoming.content.length ≤ source.content.length := by
  rw [Source.content, List.length_append]
  omega

omit [HttpCrate] in
/-- A read takes something of what is to arrive. -/
theorem incoming_of_reads {loop : FillLoop UInt8} (h : loop.Reads source source') :
    source'.incoming.content.length < source.incoming.content.length := by
  obtain ⟨-, -, arrived, rest, hread, hne, rfl⟩ := Source.pass_more h
  have hlt := Feed.length_read_content_lt (f := source.incoming) (n := loop.room source.buffered.length)
  rw [hread] at hlt
  exact hlt hne

/-- A piece that is queued is one less to queue. -/
theorem stepDownstream_pieces (hwaiting : writer.waitingOnUpstream = false)
    (hstate : writer.state ≠ .needFrame)
    (hstep : writer.stepDownstream source = (.ok writer', source')) :
    writer'.pieces + 1 = writer.pieces ∧ writer'.complete = writer.complete := by
  have hpending := pending_of_waiting hwaiting
  have hpieces : writer.pieces = writer.state.pieces := by
    unfold RequestWriter.pieces
    rw [hpending]
  rw [hpieces]
  unfold RequestWriter.stepDownstream at hstep
  split at hstep
  · rename_i hneed
    exact absurd hneed hstate
  all_goals
    rename_i heq
    obtain ⟨hqueue, rfl⟩ := Prod.mk.inj hstep
    obtain rfl := Except.ok.inj hqueue
    rw [heq]
  · exact ⟨rfl, rfl⟩
  · exact ⟨rfl, rfl⟩
  · refine ⟨?_, rfl⟩
    show 3 + (4 * _ + 1) + 1 = 4 * (_ + 1) + 1
    omega
  · exact ⟨rfl, rfl⟩
  · refine ⟨?_, rfl⟩
    show 2 + (4 * _ + 1) + 1 = 3 + (4 * _ + 1)
    omega
  · refine ⟨?_, rfl⟩
    show 1 + (4 * _ + 1) + 1 = 2 + (4 * _ + 1)
    omega
  · refine ⟨?_, rfl⟩
    show 4 * _ + 1 + 1 = 1 + (4 * _ + 1)
    omega
  · simp [RequestWriter.waitingOnUpstream, heq] at hwaiting

theorem stepUpstream_pieces {pending : PendingWrite} {written : ℕ} (hpending : writer.pending = some pending)
    (hwritten : pending.offset + written ≤ pending.bytes.asBytes.length)
    (hstep : writer.stepUpstream written = .ok writer') :
    writer'.left.length < writer.left.length ∧ writer'.pieces = writer.pieces := by
  obtain ⟨-, -, -, hleft, -⟩ := stepUpstream_left hpending hstep
  have hlength := congrArg List.length hleft
  rw [List.length_append, List.length_take, List.length_drop] at hlength
  unfold RequestWriter.stepUpstream at hstep
  rw [hpending] at hstep
  simp only at hstep
  split at hstep
  · cases hstep
  · refine ⟨by omega, ?_⟩
    unfold RequestWriter.pieces
    rw [hpending]
    split at hstep <;> obtain rfl := Except.ok.inj hstep <;> rfl

/-- What the end of a body leaves to write is short. -/
theorem queueFrame_end {decoder : BodyDecoder} (hpending : writer.pending = none)
    (hqueue : RequestWriter.queueFrame { writer with decoder } none = .ok writer') :
    writer'.isLast = true ∧ writer'.left.length + writer'.pieces < 6 := by
  unfold RequestWriter.queueFrame at hqueue
  simp only at hqueue
  split at hqueue <;> obtain rfl := Except.ok.inj hqueue
  · refine ⟨rfl, ?_⟩
    show 5 + 0 < 6
    omega
  · unfold RequestWriter.isLast RequestWriter.left RequestWriter.pieces
    simp only [hpending]
    refine ⟨rfl, ?_⟩
    show 0 + 0 < 6
    omega

/-- **Every step uses something up.** -/
theorem potential_lt (h : Advances half half') : half'.potential < half.potential := by
  cases h with
  | downstream hwaiting hstep =>
    cases hstep with
    | @read writer source source' _ hstate hread =>
      have hcontent := content_of_decoder_reads hread
      obtain ⟨loop, -, hreads⟩ := hread
      have hlt := incoming_of_reads hreads
      refine lex_lt (.inr ⟨by rw [hcontent], .inr ⟨rfl, ?_⟩⟩)
      simp only [hcontent]
      omega
    | @turn writer source source' decoder _ hstate hturn =>
      rcases BodyDecoder.turn_silent hturn with hlt | ⟨hsame, hrank⟩
      · exact lex_lt (.inl hlt)
      · refine lex_lt (.inr ⟨hsame, .inr ⟨rfl, ?_⟩⟩)
        have hincoming := incoming_le_content source'
        have hmul : (BodyDecoder.rank decoder.state + 1) * (source.content.length + 1) ≤
            BodyDecoder.rank writer.decoder.state * (source.content.length + 1) :=
          Nat.mul_le_mul_right _ hrank
        rw [Nat.add_mul, Nat.one_mul] at hmul
        simp only [hsame] at hincoming ⊢
        omega
    | @downstream writer writer' source source' _ hstep =>
      by_cases hstate : writer.state = .needFrame
      · obtain ⟨hleft, hlast, -⟩ := left_of_none (pending_of_waiting hwaiting)
        unfold RequestWriter.stepDownstream at hstep
        rw [hstate] at hstep hleft hlast
        simp only at hstep
        split at hstep
        · cases (Prod.mk.inj hstep).1
        · rename_i frame decoder source'' hframe
          obtain ⟨hqueue, rfl⟩ := Prod.mk.inj hstep
          cases frame with
          | some frame => exact lex_lt (.inl (BodyDecoder.nextFrame_frame hframe))
          | none =>
            rcases (BodyDecoder.suffix_nextFrame hframe).length_le.lt_or_eq with hlt | hsame
            · exact lex_lt (.inl hlt)
            · obtain ⟨hlast', hshort⟩ := queueFrame_end (pending_of_waiting hwaiting) hqueue
              refine lex_lt (.inr ⟨hsame, .inl ?_⟩)
              simp only [hlast', hlast, RequestState.isLast, if_true, Bool.false_eq_true, if_false]
              omega
      · obtain ⟨rfl, hdecoder, hleft, hlast, -⟩ := stepDownstream_left hwaiting hstate hstep
        obtain ⟨hpieces, -⟩ := stepDownstream_pieces hwaiting hstate hstep
        refine lex_lt (.inr ⟨rfl, .inl ?_⟩)
        simp only at hleft hlast hpieces ⊢
        rw [hleft, hlast]
        omega
    | upstream hwaiting' => exact absurd (hwaiting.symm.trans hwaiting') Bool.false_ne_true
  | upstream hpending hwritten hstep =>
    obtain ⟨-, hlast, -⟩ := stepUpstream_left hpending hstep
    obtain ⟨hlt, hpieces⟩ := stepUpstream_pieces hpending hwritten hstep
    refine lex_lt (.inr ⟨rfl, .inl ?_⟩)
    simp only [hlast, hpieces]
    omega
  | @flush writer source hpending hstate hdone =>
    refine lex_lt (.inr ⟨rfl, .inr ⟨rfl, ?_⟩⟩)
    simp only [hdone]
    simp

/-- **No run goes on for ever.** -/
theorem advances_wellFounded : WellFounded fun half' half : RequestHalf => Advances half half' :=
  (InvImage.wf potential wellFounded_lt).mono fun _ _ h => potential_lt h

/-! ## Pieces of which nothing can be taken -/

def RequestState.Solid (state : RequestState) : Prop := ∀ data, state = .chunkData data → data ≠ []

/-- A piece of which something is left, unless it is an empty value. -/
structure Offered (pending : PendingWrite) : Prop where
  rest : pending.offset < pending.bytes.asBytes.length ∨ pending.bytes.asBytes = []
  empty : pending.bytes.asBytes = [] → ∃ value, pending.bytes = .headerValue value
  next : RequestState.Solid pending.next

structure Solid (writer : RequestWriter) : Prop where
  state : RequestState.Solid writer.state
  pending : ∀ pending ∈ writer.pending, Offered pending

theorem solid_queue {bytes : PendingBytes} {next : RequestState}
    (hbytes : bytes.asBytes = [] → ∃ value, bytes = .headerValue value)
    (hnext : RequestState.Solid next) : Solid (writer.queue bytes next) := by
  refine ⟨fun _ h => (nomatch h), fun pending h => ?_⟩
  obtain rfl := Option.some.inj h
  refine ⟨?_, hbytes, hnext⟩
  rcases Nat.eq_zero_or_pos bytes.asBytes.length with hzero | hpos
  · exact .inr (List.length_eq_zero_iff.mp hzero)
  · exact .inl hpos

/-- A piece that is never empty. -/
theorem solid_queue_of_ne {bytes : PendingBytes} {next : RequestState} (hbytes : bytes.asBytes ≠ [])
    (hnext : RequestState.Solid next) : Solid (writer.queue bytes next) :=
  solid_queue (fun h => absurd h hbytes) hnext

theorem solid_queueFrame {frame : Option BodyFrame} {decoder : BodyDecoder}
    (hpending : writer.pending = none) (hdata : ∀ data, frame = some (.data data) → data ≠ [])
    (hqueue : RequestWriter.queueFrame { writer with decoder } frame = .ok writer') : Solid writer' := by
  unfold RequestWriter.queueFrame at hqueue
  split at hqueue
  · have hne := hdata _ rfl
    split at hqueue <;> obtain rfl := Except.ok.inj hqueue
    · refine solid_queue_of_ne ?_ fun data h => ?_
      · exact List.append_ne_nil_of_right_ne_nil _ (by decide)
      · exact RequestState.chunkData.inj h ▸ hne
    · exact solid_queue_of_ne hne fun _ h => nomatch h
  · split at hqueue
    · cases hqueue
    · obtain rfl := Except.ok.inj hqueue
      exact solid_queue_of_ne (List.cons_ne_nil _ _) fun _ h => nomatch h
  · split at hqueue <;> obtain rfl := Except.ok.inj hqueue
    · exact solid_queue_of_ne (List.cons_ne_nil _ _) fun _ h => nomatch h
    · refine ⟨fun _ h => (nomatch h), fun pending h => ?_⟩
      rw [show ({ writer with decoder, state := .flush } : RequestWriter).pending = none from hpending]
        at h
      cases h

/-- A step queues no empty piece but an empty value. -/
theorem solid_downstream (hreading : half.writer.decoder.Reading half.source)
    (hwaiting : half.writer.waitingOnUpstream = false) (hstep : Step half half')
    (h : Solid half.writer) : Solid half'.writer := by
  cases hstep with
  | read => exact h
  | turn => exact ⟨h.state, h.pending⟩
  | upstream hwaiting' => exact absurd (hwaiting.symm.trans hwaiting') Bool.false_ne_true
  | @downstream writer writer' source source' _ hstep =>
    have hpending := pending_of_waiting hwaiting
    have hlaw := (reading_law hreading).2
    unfold RequestWriter.stepDownstream at hstep
    split at hstep
    · split at hstep
      · cases (Prod.mk.inj hstep).1
      · rename_i frame decoder source'' hframe
        obtain ⟨hqueue, rfl⟩ := Prod.mk.inj hstep
        refine solid_queueFrame hpending (fun data hdata => ?_) hqueue
        subst hdata
        rw [hframe] at hlaw
        exact hlaw.1
    all_goals
      rename_i hstate
      obtain ⟨hqueue, rfl⟩ := Prod.mk.inj hstep
      obtain rfl := Except.ok.inj hqueue
    · exact solid_queue_of_ne (h.state _ hstate) fun _ h => nomatch h
    · exact solid_queue_of_ne (List.cons_ne_nil _ _) fun _ h => nomatch h
    · rename_i name value fields
      exact solid_queue_of_ne (validToken_ne_nil name.validToken_asStr) fun _ h => nomatch h
    · exact solid_queue_of_ne (List.cons_ne_nil _ _) fun _ h => nomatch h
    · exact solid_queue_of_ne (show ascii ": " ≠ [] by decide) fun _ h => nomatch h
    · exact solid_queue (fun _ => ⟨_, rfl⟩) fun _ h => nomatch h
    · exact solid_queue_of_ne (List.cons_ne_nil _ _) fun _ h => nomatch h
    · exact h

theorem solid_run {framing : BodyFraming} {nominations : List HeaderName} (hmodest : Modest source)
    (hrun : Sends ⟨.new framing nominations, source⟩ half sent) : Solid half.writer := by
  induction hrun with
  | start => exact ⟨fun _ h => (nomatch h), fun _ h => nomatch h⟩
  | downstream hrun hwaiting hstep ih =>
    exact solid_downstream (bounded_run hmodest hrun.run).reading hwaiting hstep ih
  | @upstream writer writer' source' pending written sent hrun hpending hwritten hstep ih =>
    have hoffered := ih.pending pending hpending
    unfold RequestWriter.stepUpstream at hstep
    rw [show writer.pending = some pending from hpending] at hstep
    simp only at hstep
    split at hstep
    · cases hstep
    · split at hstep <;> obtain rfl := Except.ok.inj hstep
      · exact ⟨hoffered.next, fun _ h => nomatch h⟩
      · rename_i hne
        refine ⟨ih.state, fun pending' h => ?_⟩
        obtain rfl := Option.some.inj h
        refine ⟨.inl ?_, hoffered.empty, hoffered.next⟩
        show pending.offset + written < pending.bytes.asBytes.length
        omega
  | flush hrun hpending hstate ih => exact ⟨ih.state, ih.pending⟩

/-- The reading of a frame fails only for an error of the body. -/
theorem stepDownstream_error {error : ForwardErrorKind} (hreading : writer.decoder.Reading source)
    (hstep : writer.stepDownstream source = (.error error, source')) :
    writer.state = .needFrame ∧
      ∃ fault, (writer.decoder.bodyOfContent source.content).ending = .error fault := by
  have hlaw := (reading_law hreading).2
  unfold RequestWriter.stepDownstream at hstep
  split at hstep
  · rename_i hstate
    refine ⟨hstate, ?_⟩
    split at hstep
    · rename_i fault decoder source'' hframe
      rw [hframe] at hlaw
      exact ⟨fault, congrArg Body.ending hlaw⟩
    · rename_i frame decoder source'' hframe
      rw [hframe] at hlaw
      obtain ⟨hqueue, -⟩ := Prod.mk.inj hstep
      unfold RequestWriter.queueFrame at hqueue
      split at hqueue
      · split at hqueue <;> cases hqueue
      · rename_i trailers
        -- trailers of a body nominate nothing, so they can be stripped
        obtain ⟨-, -, hbody⟩ := hlaw
        have hvalid := validateTrailers_of_body (congrArg Body.ending hbody)
        rw [sanitizeHopByHop, (nominations_of_valid hvalid).2] at hqueue
        cases hqueue
      · split at hqueue <;> cases hqueue
  all_goals cases (Prod.mk.inj hstep).1

/-- A writer that is complete takes no more steps. -/
theorem stuck_of_complete {framing : BodyFraming} {nominations : List HeaderName}
    (hmodest : Modest source) (hrun : Sends ⟨.new framing nominations, source⟩ half sent)
    (hdone : half.writer.complete = true) (half' : RequestHalf) : ¬ Advances half half' := by
  obtain ⟨-, -, -, hcomplete⟩ := progress_run hmodest hrun
  obtain ⟨hpending, hstate⟩ := hcomplete hdone
  intro hstep
  cases hstep with
  | downstream hwaiting => simp [RequestWriter.waitingOnUpstream, hstate] at hwaiting
  | upstream hpending' =>
    rw [hpending] at hpending'
    cases hpending'
  | flush _ _ hopen => exact absurd (hopen.symm.trans hdone) Bool.false_ne_true

/-- **The ends of a run**: the writer is complete, the body has an error, or nothing can be taken of an
empty value. -/
theorem stuck_cases {framing : BodyFraming} {nominations : List HeaderName} (hmodest : Modest source)
    (hrun : Sends ⟨.new framing nominations, source⟩ half sent)
    (hstuck : ∀ half', ¬ Advances half half') : half.writer.complete = true ∨
      (∃ error, ((BodyDecoder.new framing).bodyOfContent source.content).ending = .error error) ∨
        ∃ value ∈ half.writer.values, value.asBytes = [] := by
  obtain ⟨writer, source'⟩ := half
  have hsolid := solid_run hmodest hrun
  have hreading := (bounded_run hmodest hrun.run).reading
  cases hpending : writer.pending with
  | some pending =>
    obtain ⟨hrest, hempty, -⟩ := hsolid.pending pending hpending
    rcases hrest with hlt | hnil
    · have hstep : ∃ writer', writer.stepUpstream (pending.bytes.asBytes.length - pending.offset) =
          .ok writer' := by
        unfold RequestWriter.stepUpstream
        rw [hpending]
        simp only
        rw [if_neg (by omega)]
        split <;> exact ⟨_, rfl⟩
      obtain ⟨writer', hstep⟩ := hstep
      exact absurd (.upstream hpending (by omega) hstep) (hstuck ⟨writer', source'⟩)
    · obtain ⟨value, hvalue⟩ := hempty hnil
      refine .inr (.inr ⟨value, ?_, ?_⟩)
      · rw [(left_of_pending hpending).2.2, hvalue]
        exact List.mem_cons_self
      · rw [hvalue] at hnil
        exact hnil
  | none =>
    cases hwaiting : writer.waitingOnUpstream with
    | true =>
      have hstate : writer.state = .flush := by
        unfold RequestWriter.waitingOnUpstream at hwaiting
        rw [hpending] at hwaiting
        simp only [Option.isSome_none, Bool.false_or] at hwaiting
        split at hwaiting
        · assumption
        · cases hwaiting
      cases hdone : writer.complete with
      | true => exact .inl rfl
      | false => exact absurd (.flush hpending hstate hdone) (hstuck _)
    | false =>
      rcases hstep : writer.stepDownstream source' with ⟨error | writer', source''⟩
      · obtain ⟨hstate, fault, hfault⟩ := stepDownstream_error hreading hstep
        obtain ⟨hprogress, -⟩ := progress_run hmodest hrun
        have hlast : writer.isLast = false := by
          rw [(left_of_none hpending).2.1, hstate]
          rfl
        cases hprogress with
        | reading _ _ _ _ hbody =>
          refine .inr (.inl ⟨fault, ?_⟩)
          rw [hbody]
          exact hfault
        | ending _ hlast' => exact absurd (hlast.symm.trans hlast') Bool.false_ne_true
      · exact absurd (.downstream hwaiting (.downstream hwaiting hstep)) (hstuck ⟨writer', source''⟩)

end RequestHalf

/-- **When the writer completes.** Every run ends, whatever the origin takes of each piece; and at the end
of a run the writer is complete exactly when the client's body is well formed and no trailer that goes on
has an empty value. -/
theorem request_completes {framing : BodyFraming} {nominations : List HeaderName}
    {source : Source UInt8} (hmodest : Modest source) :
    WellFounded (fun half' half : RequestHalf => half.Advances half') ∧
    ∀ half sent, RequestHalf.Sends ⟨.new framing nominations, source⟩ half sent →
      (∀ half', ¬ half.Advances half') →
        (half.writer.complete = true ↔ ∃ trailers rest,
          ((BodyDecoder.new framing).bodyOfContent source.content).ending = .ok (trailers, rest) ∧
            ∀ name, ∀ value ∈ forwardedValues nominations trailers name, value.asBytes ≠ []) := by
  refine ⟨RequestHalf.advances_wellFounded, fun half sent hrun hstuck => ?_⟩
  obtain ⟨hprogress, -, -, hcomplete⟩ := RequestHalf.progress_run hmodest hrun
  have hforwarded {trailers : Option HeaderMap} {rest : Bytes}
      (hending : ((BodyDecoder.new framing).bodyOfContent source.content).ending =
        .ok (trailers, rest)) :
      ∃ fields, forwardedTrailers nominations trailers = some fields ∧
        ∀ name, valuesOf name fields = forwardedValues nominations trailers name :=
    forwardedTrailers_eq fun t ht => validateTrailers_of_body (ht ▸ hending)
  constructor
  · intro hdone
    obtain ⟨hpending, hstate⟩ := hcomplete hdone
    obtain ⟨-, hlast', hnone⟩ := RequestHalf.left_of_none hpending
    rw [hstate] at hlast' hnone
    cases hprogress with
    | reading _ hlast => exact absurd (hlast.symm.trans hlast') Bool.false_ne_true
    | @ending pieces trailers fields _ _ _ hfields hvalues hbody =>
      obtain ⟨taken, htaken, hne⟩ := hvalues
      rw [hnone] at htaken
      have hending := congrArg Body.ending hbody
      obtain ⟨fields', hfields', hnames⟩ := hforwarded hending
      obtain rfl := Option.some.inj (hfields.symm.trans hfields')
      refine ⟨trailers, _, hending, fun name value hvalue => hne value ?_⟩
      rw [← hnames] at hvalue
      have hmem : value ∈ fields.map Prod.snd :=
        (List.filter_sublist.map Prod.snd).subset hvalue
      rw [htaken] at hmem
      exact (List.mem_append.mp hmem).elim id fun h => absurd h List.not_mem_nil
  · rintro ⟨trailers, rest, hending, hne⟩
    rcases RequestHalf.stuck_cases hmodest hrun hstuck with hdone | ⟨error, herror⟩ | ⟨value, hvalue, hnil⟩
    · exact hdone
    · rw [hending] at herror
      cases herror
    · exfalso
      cases hprogress with
      | reading _ _ hnone =>
        rw [hnone] at hvalue
        exact List.not_mem_nil hvalue
      | @ending pieces trailers' fields _ _ _ hfields hvalues hbody =>
        obtain ⟨taken, htaken, -⟩ := hvalues
        rw [congrArg Body.ending hbody] at hending
        obtain ⟨rfl, -⟩ := Prod.mk.inj (Except.ok.inj hending)
        obtain ⟨fields', hfields', hnames⟩ := hforwarded (congrArg Body.ending hbody)
        obtain rfl := Option.some.inj (hfields.symm.trans hfields')
        have hmem : value ∈ fields.map Prod.snd := htaken ▸ List.mem_append_right taken hvalue
        obtain ⟨⟨name, value'⟩, hfield, rfl⟩ := List.mem_map.mp hmem
        refine hne name value' ?_ hnil
        rw [← hnames, valuesOf, List.mem_map]
        exact ⟨_, List.mem_filter.mpr ⟨hfield, decide_eq_true rfl⟩, rfl⟩

omit [HttpCrate] in
theorem request_completes_chunked : ∃ (_ : HttpCrate) (trailers : Option HeaderMap) (rest : Bytes),
    ((BodyDecoder.new .chunked).bodyOfContent chunkedBody).ending = .ok (trailers, rest) ∧
      ∀ name, ∀ value ∈ forwardedValues [] trailers name, value.asBytes ≠ [] := by
  let _ := HttpCrate.reference
  obtain ⟨half, hdone, hrun⟩ := sends_chunked
  have hmodest : Modest ⟨chunkedBody, .empty⟩ := (by decide : chunkedBody.length ≤ requestLineLimit)
  exact ⟨_, ((request_completes hmodest).2 half _ hrun
    (RequestHalf.stuck_of_complete hmodest hrun hdone)).mp hdone⟩

end Vhrn.Proxy
