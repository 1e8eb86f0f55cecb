import Vhrn.Foundations.Copying
import Vhrn.Foundations.Bytes

/-!
# The relay of the broker

The host broker copies the octets of an accepted connection with one thread for each direction. A thread
copies until its source is at an end of file, and then shuts down both sockets, one after the other and
each of them for reading and for writing. `relay_delivers` says that a relay delivers what its peers
write when no thread does so before the other has copied everything, and `half_close_loses` that one
which does, because the client closes its side after a request, loses the answer.
-/

namespace Vhrn.Cli

/-- The buffer of a copy. -/
def copyBufferBytes : ℕ := 8 * 1024

inductive Socket
  | client
  | upstream
  deriving DecidableEq

/-- The direction of a thread: forward from the client, or back to it. -/
inductive Direction
  | forward
  | backward
  deriving DecidableEq

namespace Direction

def source : Direction → Socket
  | forward => .client
  | backward => .upstream

def sink : Direction → Socket
  | forward => .upstream
  | backward => .client

def other : Direction → Direction
  | forward => backward
  | backward => forward

theorem eq_or_eq_other (d e : Direction) : e = d ∨ e = d.other := by
  cases d <;> cases e <;> simp [other]

end Direction

/-- Where a thread stands: it copies, has come to the end of its source, has shut down the socket of the
origin, or both sockets. -/
inductive ThreadPhase
  | copying
  | ended
  | shutting
  | done
  deriving DecidableEq

structure RelayThread where
  copy : Copy UInt8
  phase : ThreadPhase

/-- A step of a thread. -/
inductive RelayStep
  | read (n : ℕ)
  | write (n : ℕ)
  | endOfFile
  | shutdown (socket : Socket)
  deriving DecidableEq

/-- The threads of a relay, and the sockets that it has shut down for reading and writing. -/
structure BrokerRelay where
  thread : Direction → RelayThread
  shut : Socket → Bool

namespace BrokerRelay

/-- The relay of a connection on which the peers write the given octets before they close their sides. -/
def new (octets : Direction → Bytes) : BrokerRelay where
  thread d := { copy := ⟨[], [], octets d⟩, phase := .copying }
  shut _ := false

def setCopy (r : BrokerRelay) (d : Direction) (copy : Copy UInt8) : BrokerRelay :=
  { r with thread := Function.update r.thread d { r.thread d with copy } }

def setPhase (r : BrokerRelay) (d : Direction) (phase : ThreadPhase) : BrokerRelay :=
  { r with thread := Function.update r.thread d { r.thread d with phase } }

def shutSocket (r : BrokerRelay) (socket : Socket) : BrokerRelay :=
  { r with shut := Function.update r.shut socket true }

/-- One step of a thread in which no error occurs. A socket that is shut down is at an end of file,
though what has arrived can still be read; writing to it is an error. -/
def step (r : BrokerRelay) : Direction × RelayStep → Option BrokerRelay
  | (d, .read n) =>
    if (r.thread d).phase = .copying then
      ((r.thread d).copy.transfer copyBufferBytes (.read n)).map (r.setCopy d)
    else none
  | (d, .write n) =>
    if (r.thread d).phase = .copying ∧ r.shut d.sink = false then
      ((r.thread d).copy.transfer copyBufferBytes (.write n)).map (r.setCopy d)
    else none
  | (d, .endOfFile) =>
    if (r.thread d).phase = .copying ∧ (r.thread d).copy.pending = [] ∧
        ((r.thread d).copy.incoming = [] ∨ r.shut d.source = true) then
      some (r.setPhase d .ended)
    else none
  | (d, .shutdown .upstream) =>
    if (r.thread d).phase = .ended then some ((r.setPhase d .shutting).shutSocket .upstream) else none
  | (d, .shutdown .client) =>
    if (r.thread d).phase = .shutting then some ((r.setPhase d .done).shutSocket .client) else none

/-- A relay that has delivered what it should have: the octets in their order, all of them in a direction
that is no longer copied. The end of a direction is passed on: its sink is shut down once its thread is
done, and not before the sink was given all octets. A thread that is not done can go on. -/
structure Delivers (octets : Direction → Bytes) (r : BrokerRelay) : Prop where
  order : ∀ d, (r.thread d).copy.sent <+: octets d
  ended : ∀ d, (r.thread d).phase ≠ .copying → (r.thread d).copy.sent = octets d
  passedOn : ∀ d, (r.thread d).phase = .done → r.shut d.sink = true
  last : ∀ d, r.shut d.sink = true → (r.thread d).copy.sent = octets d
  goesOn : ∀ d, (r.thread d).phase ≠ .done → ∃ s, (r.step (d, s)).isSome = true

/-- A thread that shuts a socket down does so when the other has copied everything. -/
def ShutsDrained (r : BrokerRelay) : Direction × RelayStep → Prop
  | (d, .shutdown _) => (r.thread d.other).copy.Drained
  | _ => True

instance (r : BrokerRelay) (m : Direction × RelayStep) : Decidable (r.ShutsDrained m) := by
  obtain ⟨d, s⟩ := m
  cases s <;> unfold ShutsDrained <;> infer_instance

/-- What holds between steps: the octets are all there, and a thread that no longer copies, or a socket
that is shut down, has nothing left to copy. -/
structure Invariant (octets : Direction → Bytes) (r : BrokerRelay) : Prop where
  content : ∀ d, (r.thread d).copy.content = octets d
  ended : ∀ d, (r.thread d).phase ≠ .copying → (r.thread d).copy.Drained
  shut : ∀ socket, r.shut socket = true → ∀ d, (r.thread d).copy.Drained

/-- A thread has shut down the sockets that its phase says. -/
structure Shuts (r : BrokerRelay) : Prop where
  upstream : ∀ d, (r.thread d).phase = .shutting ∨ (r.thread d).phase = .done → r.shut .upstream = true
  client : ∀ d, (r.thread d).phase = .done → r.shut .client = true

variable {r r' : BrokerRelay} {d : Direction} {s : RelayStep} {octets : Direction → Bytes}

/-- What a step does. -/
theorem step_cases (h : r.step (d, s) = some r') :
    (∃ t copy, (r.thread d).phase = .copying ∧
        (r.thread d).copy.transfer copyBufferBytes t = some copy ∧ r' = r.setCopy d copy) ∨
      (s = .endOfFile ∧ (r.thread d).copy.pending = [] ∧
        ((r.thread d).copy.incoming = [] ∨ r.shut d.source = true) ∧ r' = r.setPhase d .ended) ∨
      (∃ socket phase, s = .shutdown socket ∧
        ((r.thread d).phase = .ended ∧ socket = .upstream ∧ phase = .shutting ∨
          (r.thread d).phase = .shutting ∧ socket = .client ∧ phase = .done) ∧
        r' = (r.setPhase d phase).shutSocket socket) := by
  cases s with
  | read n =>
    obtain ⟨hphase, h⟩ := Option.ite_none_right_eq_some.mp h
    obtain ⟨copy, hcopy, rfl⟩ := Option.map_eq_some_iff.mp h
    exact .inl ⟨_, copy, hphase, hcopy, rfl⟩
  | write n =>
    obtain ⟨⟨hphase, -⟩, h⟩ := Option.ite_none_right_eq_some.mp h
    obtain ⟨copy, hcopy, rfl⟩ := Option.map_eq_some_iff.mp h
    exact .inl ⟨_, copy, hphase, hcopy, rfl⟩
  | endOfFile =>
    obtain ⟨⟨-, hpending, hend⟩, h⟩ := Option.ite_none_right_eq_some.mp h
    exact .inr (.inl ⟨rfl, hpending, hend, (Option.some.inj h).symm⟩)
  | shutdown socket =>
    cases socket with
    | client =>
      obtain ⟨hphase, h⟩ := Option.ite_none_right_eq_some.mp h
      exact .inr (.inr ⟨.client, .done, rfl, .inr ⟨hphase, rfl, rfl⟩, (Option.some.inj h).symm⟩)
    | upstream =>
      obtain ⟨hphase, h⟩ := Option.ite_none_right_eq_some.mp h
      exact .inr (.inr ⟨.upstream, .shutting, rfl, .inl ⟨hphase, rfl, rfl⟩, (Option.some.inj h).symm⟩)

theorem thread_setCopy (copy : Copy UInt8) (e : Direction) :
    (r.setCopy d copy).thread e = if e = d then { r.thread d with copy } else r.thread e :=
  Function.update_apply ..

theorem thread_setPhase (phase : ThreadPhase) (e : Direction) :
    (r.setPhase d phase).thread e = if e = d then { r.thread d with phase } else r.thread e :=
  Function.update_apply ..

/-- A phase leaves what has been copied. -/
theorem copy_setPhase (phase : ThreadPhase) (e : Direction) :
    ((r.setPhase d phase).thread e).copy = (r.thread e).copy := by
  rw [thread_setPhase]
  split
  · rename_i h
    rw [h]
  · rfl

theorem phase_setCopy (copy : Copy UInt8) (e : Direction) :
    ((r.setCopy d copy).thread e).phase = (r.thread e).phase := by
  rw [thread_setCopy]
  split
  · rename_i h
    rw [h]
  · rfl

theorem phase_setPhase (phase : ThreadPhase) (e : Direction) :
    ((r.setPhase d phase).thread e).phase = if e = d then phase else (r.thread e).phase := by
  rw [thread_setPhase]
  split <;> rfl

theorem shut_shutSocket (socket other : Socket) :
    (r.shutSocket socket).shut other = if other = socket then true else r.shut other :=
  Function.update_apply ..

theorem shuts_new (octets : Direction → Bytes) : (new octets).Shuts where
  upstream _ h := by rcases h with h | h <;> cases h
  client _ h := by cases h

/-- Every step of a thread shuts down what its new phase says. -/
theorem shuts_step (h : r.step (d, s) = some r') (hr : r.Shuts) : r'.Shuts := by
  obtain ⟨t, copy, -, -, rfl⟩ | ⟨-, -, -, rfl⟩ | ⟨socket, phase, -, hphase, rfl⟩ := step_cases h
  · refine ⟨fun e he => hr.upstream e ?_, fun e he => hr.client e ?_⟩
    · rwa [phase_setCopy] at he
    · rwa [phase_setCopy] at he
  · refine ⟨fun e he => hr.upstream e ?_, fun e he => hr.client e ?_⟩
    · rw [phase_setPhase] at he
      split at he
      · rcases he with he | he <;> cases he
      · exact he
    · rw [phase_setPhase] at he
      split at he
      · cases he
      · exact he
  · have hother (e : Direction) (hne : e ≠ d) :
        (((r.setPhase d phase).shutSocket socket).thread e).phase = (r.thread e).phase := by
      rw [shutSocket, phase_setPhase, if_neg hne]
    have hkept {other : Socket} (hshut : r.shut other = true) :
        ((r.setPhase d phase).shutSocket socket).shut other = true := by
      rw [shut_shutSocket]
      split
      · rfl
      · exact hshut
    have hself : (((r.setPhase d phase).shutSocket socket).thread d).phase = phase := by
      rw [shutSocket, phase_setPhase, if_pos rfl]
    rcases hphase with ⟨hended, rfl, rfl⟩ | ⟨hshutting, rfl, rfl⟩
    · refine ⟨fun e _ => shut_shutSocket _ _ ▸ if_pos rfl, fun e he => hkept (hr.client e ?_)⟩
      by_cases hed : e = d
      · rw [hed, hself] at he
        cases he
      · rwa [hother e hed] at he
    · refine ⟨fun e _ => hkept (hr.upstream d (.inl hshutting)), fun e _ => shut_shutSocket _ _ ▸ if_pos rfl⟩

theorem invariant_new (octets : Direction → Bytes) : (new octets).Invariant octets where
  content _ := rfl
  ended _ h := absurd rfl h
  shut _ h := by cases h

/-- **A step that shuts sockets down only when nothing is left keeps the invariant.** -/
theorem invariant_step (hdrained : r.ShutsDrained (d, s)) (h : r.step (d, s) = some r')
    (hr : r.Invariant octets) : r'.Invariant octets := by
  obtain ⟨t, copy, hphase, hcopy, rfl⟩ | ⟨rfl, hpending, hend, rfl⟩ |
    ⟨socket, phase, rfl, hphase, rfl⟩ := step_cases h
  · have hbusy := Copy.not_drained_of_transfer hcopy
    refine ⟨fun e => ?_, fun e he => ?_, fun socket hshut => ?_⟩
    · rw [thread_setCopy]
      split
      · rename_i he
        rw [he]
        exact (Copy.content_transfer hcopy).trans (hr.content d)
      · exact hr.content e
    · rw [thread_setCopy] at he ⊢
      split at he
      · exact absurd hphase he
      · rename_i hne
        rw [if_neg hne]
        exact hr.ended e he
    · exact absurd (hr.shut socket hshut d) hbusy
  · have hsource : (r.thread d).copy.Drained :=
      hend.elim (fun hincoming => ⟨hpending, hincoming⟩) fun hshut => hr.shut _ hshut d
    refine ⟨fun e => ?_, fun e he => ?_, fun socket hshut e => ?_⟩
    · rw [copy_setPhase]
      exact hr.content e
    · rw [copy_setPhase]
      by_cases hed : e = d
      · rw [hed]
        exact hsource
      · rw [thread_setPhase, if_neg hed] at he
        exact hr.ended e he
    · rw [copy_setPhase]
      exact hr.shut socket hshut e
  · have hall (e : Direction) : (r.thread e).copy.Drained := by
      rcases d.eq_or_eq_other e with rfl | rfl
      · exact hr.ended _ (by rcases hphase with ⟨h, -⟩ | ⟨h, -⟩ <;> rw [h] <;> decide)
      · exact hdrained
    refine ⟨fun e => ?_, fun e _ => ?_, fun _ _ e => ?_⟩
    · exact (congrArg Copy.content (copy_setPhase phase e)).trans (hr.content e)
    · exact (copy_setPhase phase e).symm ▸ hall e
    · exact (copy_setPhase phase e).symm ▸ hall e

/-- A thread that is not done can go on: it copies, notices the end, or shuts down its next socket. -/
theorem Invariant.goesOn (hr : r.Invariant octets) (hphase : (r.thread d).phase ≠ .done) :
    ∃ s, (r.step (d, s)).isSome = true := by
  cases hcases : (r.thread d).phase with
  | copying =>
    by_cases hdrained : (r.thread d).copy.Drained
    · refine ⟨.endOfFile, ?_⟩
      rw [step, if_pos ⟨hcases, hdrained.1, .inl hdrained.2⟩]
      rfl
    · have hopen : r.shut d.sink = false := by
        by_contra hshut
        exact hdrained (hr.shut _ (Bool.not_eq_false _ ▸ hshut) d)
      obtain ⟨t, ht⟩ := Copy.exists_transfer (by decide : 1 ≤ copyBufferBytes) hdrained
      cases t with
      | read n =>
        refine ⟨.read n, ?_⟩
        rw [step, if_pos hcases, Option.isSome_map]
        exact ht
      | write n =>
        refine ⟨.write n, ?_⟩
        rw [step, if_pos ⟨hcases, hopen⟩, Option.isSome_map]
        exact ht
  | ended =>
    refine ⟨.shutdown .upstream, ?_⟩
    rw [step, if_pos hcases]
    rfl
  | shutting =>
    refine ⟨.shutdown .client, ?_⟩
    rw [step, if_pos hcases]
    rfl
  | done => exact absurd hcases hphase

theorem Invariant.delivers (hr : r.Invariant octets) (hshuts : r.Shuts) : r.Delivers octets where
  order d := by
    rw [← hr.content d]
    exact Copy.sent_isPrefix _
  ended d h := by
    rw [← hr.content d]
    exact Copy.sent_of_drained (hr.ended d h)
  passedOn d h := by
    cases d with
    | forward => exact hshuts.upstream .forward (.inr h)
    | backward => exact hshuts.client .backward h
  last d h := by
    rw [← hr.content d]
    exact Copy.sent_of_drained (hr.shut _ h d)
  goesOn _ := hr.goesOn

end BrokerRelay

/-- **A relay delivers everything when no thread shuts the sockets down before the other has copied
everything**: each direction in its order, with its end passed on after the last octet. -/
theorem relay_delivers {octets : Direction → Bytes} {steps : List (Direction × RelayStep)}
    {r : BrokerRelay} (hdrained : RunWhere BrokerRelay.step BrokerRelay.ShutsDrained (.new octets) steps)
    (h : run BrokerRelay.step (.new octets) steps = some r) : r.Delivers octets := by
  have hinvariant : r.Invariant octets := run_invariant_where
    (fun hd hs hr => BrokerRelay.invariant_step hd hs hr) hdrained h (BrokerRelay.invariant_new octets)
  have hshuts : r.Shuts :=
    run_invariant (fun hs hr => BrokerRelay.shuts_step hs hr) h (BrokerRelay.shuts_new octets)
  exact hinvariant.delivers hshuts

/-- One octet for each peer. -/
def requestAndAnswer : Direction → Bytes
  | .forward => ascii "q"
  | .backward => ascii "a"

/-- A relay that both threads leave after the answer. -/
def answeredRelay : List (Direction × RelayStep) :=
  [(.forward, .read 1), (.forward, .write 1), (.backward, .read 1), (.backward, .write 1),
    (.forward, .endOfFile), (.forward, .shutdown .upstream), (.backward, .endOfFile),
    (.backward, .shutdown .upstream), (.forward, .shutdown .client), (.backward, .shutdown .client)]

theorem relay_delivers_example : ∃ r, run BrokerRelay.step (.new requestAndAnswer) answeredRelay = some r ∧
    (∀ d, (r.thread d).phase = .done) ∧ r.Delivers requestAndAnswer := by
  refine ⟨_, rfl, fun d => by cases d <;> rfl, ?_⟩
  exact relay_delivers (by decide +kernel : RunWhere BrokerRelay.step BrokerRelay.ShutsDrained
    (.new requestAndAnswer) answeredRelay) rfl

/-- **A client that closes its side after its request loses the answer**: the thread of its direction
shuts the socket of the origin down, and the other thread is at an end of file before the answer has
come. -/
theorem half_close_loses : ¬ ∀ (octets : Direction → Bytes) (steps : List (Direction × RelayStep))
    (r : BrokerRelay), run BrokerRelay.step (.new octets) steps = some r → r.Delivers octets := by
  intro h
  have hlost := (h requestAndAnswer
    [(.forward, .read 1), (.forward, .write 1), (.forward, .endOfFile),
      (.forward, .shutdown .upstream), (.backward, .endOfFile)] _ rfl).ended .backward
  exact absurd (hlost (by decide +kernel)) (by decide +kernel)

end Vhrn.Cli
