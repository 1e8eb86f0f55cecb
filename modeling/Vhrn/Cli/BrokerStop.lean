import Vhrn.Foundations.Holdings
import Vhrn.Foundations.Runs

/-!
# Stopping the host broker

The accept loop takes a permit for each client, registers its socket and spawns a worker, which may dial
a host service, register that socket too and relay. `stop` sets a flag, takes the registered sockets and
shuts them down, and joins the accept loop and then the workers. Every section under a mutex is one step.

What the threads hold is a list of what they will drop, so that every step is one use of the shared
resources, hands a connection over, or belongs to `stop` (`Move`): permits are conserved and registrations
answered for (`Budgeted`). Which threads can still be running is a matter of their handles (`Tracked`).
`broker_stop` puts the two together.
-/

namespace Vhrn.Cli.BrokerStop

open Holdings

/-! ## The phases of the threads -/

/-- A socket and the identity under which it is registered. -/
structure Connection where
  socket : ℕ
  id : ℕ
  deriving DecidableEq

/-- What dropping a client connection drops, in its order. -/
def clientDrops (c : Connection) : List Held :=
  [.descriptor c.socket, .permit, .registration c.id c.socket]

/-- What dropping the origin's connection drops. -/
def originDrops (u : Connection) : List Held := [.registration u.id u.socket, .descriptor u.socket]

/-- What is dropped after a relay, which has taken the two streams. -/
def relayDrops (c u : Connection) : List Held :=
  [.descriptor u.socket, .descriptor c.socket, .registration u.id u.socket, .permit,
    .registration c.id c.socket]

/-- Where a worker is. While it drops it knows what it goes on with: an answer to the client, or its
end. -/
inductive WorkerPhase
  | unborn
  | handshake (c : Connection)
  | policy (c : Connection)
  | dial (c : Connection)
  | connect (c : Connection)
  | register (c : Connection) (origin : ℕ)
  | recheck (c u : Connection)
  | answer (c u : Connection)
  | relay (c u : Connection)
  | shutOrigin (c u : Connection)
  | shutClient (c u : Connection)
  | dropping (drops : List Held) (next : Option Connection)
  | reply (c : Connection)
  | ended
  deriving DecidableEq

def WorkerPhase.held : WorkerPhase → List Held
  | unborn | ended => []
  | handshake c | policy c | dial c | connect c | reply c => clientDrops c
  | register c origin => .descriptor origin :: clientDrops c
  | recheck c u | answer c u | relay c u | shutOrigin c u | shutClient c u =>
    originDrops u ++ clientDrops c
  | dropping drops next => drops ++ next.elim [] clientDrops

/-- Where the accept loop is. -/
inductive AcceptPhase
  | notStarted
  | check
  | reap
  | accept
  | configure (socket : ℕ)
  | acquire (socket : ℕ)
  | register (socket : ℕ)
  | spawn (c : Connection)
  | push (worker : ℕ)
  | shut (socket : ℕ) (drops : List Held)
  | dropping (drops : List Held)
  | lastReap
  | ended
  deriving DecidableEq

def AcceptPhase.held : AcceptPhase → List Held
  | configure socket | acquire socket => [.descriptor socket]
  | register socket => [.permit, .descriptor socket]
  | spawn c => clientDrops c
  | shut _ drops | dropping drops => drops
  | _ => []

/-- Where the first call of `stop` is, with the handle of the accept loop, the sockets that it has to
shut down and the workers that it has to join. -/
inductive StopPhase
  | notCalled
  | ready (handle : Bool)
  | take (handle : Bool)
  | shutting (taken : List ℕ) (handle : Bool)
  | joinAccept (handle : Bool)
  | takeWorkers
  | joining (workers : List ℕ)
  | removing
  | returned
  deriving DecidableEq

def StopPhase.taken : StopPhase → List ℕ
  | shutting taken _ => taken
  | _ => []

def StopPhase.joins : StopPhase → List ℕ
  | joining workers => workers
  | _ => []

/-- `stop` has set `stopped` for `wait_ready`. -/
def StopPhase.Told : StopPhase → Prop
  | notCalled | ready _ => False
  | _ => True

/-- `stop` has taken the table of sockets. -/
def StopPhase.Emptied : StopPhase → Prop
  | notCalled | ready _ | take _ => False
  | _ => True

/-- `stop` has joined the accept loop. -/
def StopPhase.Joined : StopPhase → Prop
  | takeWorkers | joining _ | removing | returned => True
  | _ => False

/-- The handle of the accept loop that `stop` has still to join. -/
def StopPhase.handle : StopPhase → Option Bool
  | ready handle | take handle | shutting _ handle | joinAccept handle => some handle
  | _ => none

/-- `stop` has taken the handles of the workers. -/
def StopPhase.Drained : StopPhase → Prop
  | joining _ | removing | returned => True
  | _ => False

/-! ## The broker -/

/-- The state that the threads share, and where they are. The resources are closed when the broker is
stopped. -/
structure Broker where
  resources : Resources
  listening : Bool
  handle : Bool
  ready : Bool
  readyStopped : Bool
  workers : List ℕ
  accept : AcceptPhase
  spawned : ℕ
  worker : ℕ → WorkerPhase
  stop : StopPhase

/-- A broker that is bound, with a number of permits. -/
def Broker.bind (limit : ℕ) : Broker where
  resources := { closed := false, permits := limit, table := [], nextId := 0, opened := 0,
                 shut := fun _ => false }
  listening := true
  handle := false
  ready := false
  readyStopped := false
  workers := []
  accept := .notStarted
  spawned := 0
  worker := fun _ => .unborn
  stop := .notCalled

/-- Dropping one thing. -/
def drop (r : Resources) : Held → Resources
  | .permit => { r with permits := r.permits + 1 }
  | .descriptor _ => r
  | .registration id _ => r.remove id

/-- The handles of the workers that are still running. -/
def Broker.reapWorkers (b : Broker) : List ℕ := b.workers.filter fun w => b.worker w ≠ .ended

/-- How a step ends: as it should, without anything to do, or with an error. -/
inductive AcceptOutcome
  | go
  | wouldBlock
  | fail

def Broker.acceptStep (b : Broker) : AcceptOutcome → Option Broker
  | .go =>
    match b.accept with
    | .check => some { b with accept := if b.resources.closed then .lastReap else .reap }
    | .reap => some { b with workers := b.reapWorkers, accept := .accept }
    | .accept =>
      some { b with resources := { b.resources with opened := b.resources.opened + 1 }
                    accept := .configure b.resources.opened }
    | .configure socket => some { b with accept := .acquire socket }
    | .acquire socket =>
      if b.resources.permits = 0 ∨ b.resources.closed = true then
        some { b with accept := .shut socket [.descriptor socket] }
      else
        some { b with resources := { b.resources with permits := b.resources.permits - 1 }
                      accept := .register socket }
    | .register socket =>
      if b.resources.closed then
        some { b with resources := b.resources.shutDown socket
                      accept := .shut socket [.permit, .descriptor socket] }
      else
        some { b with resources := b.resources.enter socket
                      accept := .spawn ⟨socket, b.resources.nextId⟩ }
    | .spawn c =>
      some { b with spawned := b.spawned + 1
                    worker := Function.update b.worker b.spawned (.handshake c)
                    accept := .push b.spawned }
    | .push w => some { b with workers := b.workers ++ [w], accept := .check }
    | .shut socket drops =>
      some { b with resources := b.resources.shutDown socket, accept := .dropping drops }
    | .dropping [] => some { b with accept := .check }
    | .dropping (d :: ds) => some { b with resources := drop b.resources d, accept := .dropping ds }
    | .lastReap => some { b with workers := b.reapWorkers, accept := .ended }
    | .notStarted | .ended => none
  | .wouldBlock =>
    match b.accept with
    | .accept => some { b with accept := .check }
    | _ => none
  | .fail =>
    match b.accept with
    | .accept => some { b with accept := .lastReap }
    | .configure socket => some { b with accept := .shut socket [.descriptor socket] }
    | .register socket => some { b with accept := .shut socket [.permit, .descriptor socket] }
    | .spawn c => some { b with accept := .dropping (clientDrops c) }
    | _ => none

/-- What a worker's step meets: the request for readiness or for a connection, octets that a copy moves
towards the client or the origin, a direction that has ended, or an error. -/
inductive WorkerOutcome
  | go
  | ready
  | connect
  | again
  | octets (toClient : Bool)
  | shut (client : Bool)
  | fail

/-- The next phase of a worker, the resources and whether it has reported readiness. -/
def WorkerPhase.next (r : Resources) : WorkerPhase → WorkerOutcome →
    Option (WorkerPhase × Resources × Bool)
  | .handshake c, .ready => some (.reply c, r, true)
  | .handshake c, .connect => some (.policy c, r, false)
  | .handshake c, .fail => some (.reply c, r, false)
  | .policy c, .go => some (.dial c, r, false)
  | .policy c, .fail => some (.reply c, r, false)
  | .dial c, .go => some (if r.closed then .reply c else .connect c, r, false)
  | .dial c, .fail => some (.reply c, r, false)
  | .connect c, .go => some (.register c r.opened, { r with opened := r.opened + 1 }, false)
  | .connect c, .again => some (.dial c, r, false)
  | .connect c, .fail => some (.reply c, r, false)
  | .register c origin, .go =>
    if r.closed then some (.dropping [.descriptor origin] (some c), r.shutDown origin, false)
    else some (.recheck c ⟨origin, r.nextId⟩, r.enter origin, false)
  | .register c origin, .fail => some (.dropping [.descriptor origin] (some c), r, false)
  | .recheck c u, .go =>
    if r.closed then some (.dropping (originDrops u) (some c), r.shutDown u.socket, false)
    else some (.answer c u, r, false)
  | .answer c u, .go => some (.relay c u, r, false)
  | .answer c u, .fail => some (.dropping (originDrops u ++ clientDrops c) none, r, false)
  | .relay c u, .octets toClient =>
    if r.shut (if toClient then c.socket else u.socket) then none else some (.relay c u, r, false)
  | .relay c u, .shut client =>
    some (.relay c u, r.shutDown (if client then c.socket else u.socket), false)
  | .relay c u, .go => some (.shutOrigin c u, r, false)
  | .relay c u, .fail => some (.dropping (relayDrops c u) none, r, false)
  | .shutOrigin c u, .go => some (.shutClient c u, r.shutDown u.socket, false)
  | .shutClient c u, .go => some (.dropping (relayDrops c u) none, r.shutDown c.socket, false)
  | .dropping (d :: ds) next, .go => some (.dropping ds next, drop r d, false)
  | .dropping [] (some c), .go => some (.reply c, r, false)
  | .dropping [] none, .go => some (.ended, r, false)
  | .reply c, .go => some (.dropping (clientDrops c) none, r, false)
  | _, _ => none

def Broker.workerStep (b : Broker) (w : ℕ) (outcome : WorkerOutcome) : Option Broker :=
  ((b.worker w).next b.resources outcome).map fun (phase, resources, ready) =>
    { b with worker := Function.update b.worker w phase
             resources := resources
             ready := b.ready || ready }

/-- One step of `stop`; the sockets are shut down in any order. -/
def Broker.stopStep (b : Broker) (socket : ℕ) : Option Broker :=
  match b.stop with
  | .notCalled =>
    some { b with resources := { b.resources with closed := true }
                  listening := false
                  handle := false
                  stop := .ready b.handle }
  | .ready handle => some { b with readyStopped := true, stop := .take handle }
  | .take handle =>
    some { b with resources := { b.resources with table := [] }
                  stop := .shutting (b.resources.table.map Prod.snd) handle }
  | .shutting [] handle => some { b with stop := .joinAccept handle }
  | .shutting taken handle =>
    if socket ∈ taken then
      some { b with resources := b.resources.shutDown socket
                    stop := .shutting (taken.erase socket) handle }
    else none
  | .joinAccept handle =>
    if handle = true ∧ b.accept ≠ .ended then none else some { b with stop := .takeWorkers }
  | .takeWorkers => some { b with workers := [], stop := .joining b.workers }
  | .joining [] => some { b with stop := .removing }
  | .joining (w :: ws) => if b.worker w = .ended then some { b with stop := .joining ws } else none
  | .removing => some { b with stop := .returned }
  | .returned => none

/-- `start_accepting`, when its thread can be spawned and when not. -/
def Broker.startAccepting (b : Broker) (spawns : Bool) : Option Broker :=
  if b.resources.closed = false ∧ b.listening = true then
    some { b with listening := false
                  handle := spawns
                  accept := if spawns then .check else b.accept }
  else none

inductive BrokerEvent
  | start (spawns : Bool)
  | accept (outcome : AcceptOutcome)
  | worker (w : ℕ) (outcome : WorkerOutcome)
  | stop (socket : ℕ)

/-- One step of one thread. -/
def step (b : Broker) : BrokerEvent → Option Broker
  | .start spawns => b.startAccepting spawns
  | .accept outcome => b.acceptStep outcome
  | .worker w outcome => b.workerStep w outcome
  | .stop socket => b.stopStep socket

/-- What `wait_ready` reports, if it does not wait any longer: whether the broker is ready. -/
def Broker.waitReady (b : Broker) (expired : Bool) : Option Bool :=
  if !b.ready && !b.readyStopped then if expired then some false else none
  else some !b.readyStopped

/-! ## What the threads hold -/

/-- What the accept loop holds, and what each worker holds. -/
def Broker.held (b : Broker) : Option ℕ → List Held
  | none => b.accept.held
  | some w => (b.worker w).held

theorem use_drop (r : Resources) (d : Held) (held : List Held) : Use r (d :: held) (drop r d) held := by
  cases d with
  | permit => exact .give (List.Perm.refl _)
  | descriptor socket => exact .close (List.Perm.refl _)
  | registration id socket => exact .unregister (List.Perm.refl _)

theorem drop_permits (r : Resources) (d : Held) : r.permits ≤ (drop r d).permits := by
  cases d with
  | permit => exact Nat.le_succ _
  | descriptor socket => exact le_rfl
  | registration id socket => exact le_rfl

theorem relayDrops_perm (c u : Connection) :
    (relayDrops c u).Perm (originDrops u ++ clientDrops c) :=
  (List.perm_middle : ([_, _] ++ Held.registration u.id u.socket :: _).Perm _)

theorem clientDrops_perm {socket id : ℕ} : (clientDrops ⟨socket, id⟩).Perm
    [.registration id socket, .permit, .descriptor socket] :=
  (List.reverse_perm _).symm

/-- **A step of a worker is one use of the resources.** -/
theorem use_next {r r' : Resources} {phase phase' : WorkerPhase} {outcome : WorkerOutcome} {ready : Bool}
    (h : phase.next r outcome = some (phase', r', ready)) : Use r phase.held r' phase'.held := by
  unfold WorkerPhase.next at h
  split at h
  case h_6 => cases h; split <;> exact .keep (List.Perm.refl _)
  case h_8 => cases h; exact .open (List.Perm.refl _)
  case h_11 =>
    split at h
    · cases h
      exact .shut (List.Perm.refl _)
    · rename_i hopen
      cases h
      exact .register (Bool.eq_false_iff.mpr hopen) (List.Perm.refl _)
  case h_13 =>
    split at h
    · cases h
      exact .shut (List.Perm.refl _)
    · cases h
      exact .keep (List.Perm.refl _)
  case h_16 =>
    obtain ⟨-, h⟩ := Option.ite_none_left_eq_some.mp h
    cases h
    exact .keep (List.Perm.refl _)
  case h_17 => cases h; exact .shut (List.Perm.refl _)
  case h_19 => cases h; exact .keep (by simpa [WorkerPhase.held] using relayDrops_perm _ _)
  case h_20 => cases h; exact .shut (List.Perm.refl _)
  case h_21 => cases h; exact .shut (by simpa [WorkerPhase.held] using relayDrops_perm _ _)
  case h_22 => cases h; exact use_drop r _ _
  all_goals cases h
  all_goals exact .keep (List.Perm.refl _)

/-- A worker returns permits and takes none. -/
theorem next_permits {r r' : Resources} {phase phase' : WorkerPhase} {outcome : WorkerOutcome}
    {ready : Bool} (h : phase.next r outcome = some (phase', r', ready)) : r.permits ≤ r'.permits := by
  unfold WorkerPhase.next at h
  split at h
  case h_11 => split at h <;> (cases h; exact le_rfl)
  case h_13 => split at h <;> (cases h; exact le_rfl)
  case h_16 =>
    obtain ⟨-, h⟩ := Option.ite_none_left_eq_some.mp h
    cases h
    exact le_rfl
  case h_22 d ds next =>
    cases h
    exact drop_permits r d
  all_goals cases h
  all_goals exact le_rfl

/-- A step of one worker, with what it changes. -/
theorem worker_cases {b b' : Broker} {w : ℕ} {outcome : WorkerOutcome}
    (h : b.workerStep w outcome = some b') : ∃ phase r ready,
    (b.worker w).next b.resources outcome = some (phase, r, ready) ∧
      b' = { b with worker := Function.update b.worker w phase
                    resources := r
                    ready := b.ready || ready } := by
  obtain ⟨⟨phase, r, ready⟩, hnext, rfl⟩ := Option.map_eq_some_iff.mp h
  exact ⟨phase, r, ready, hnext, rfl⟩

/-- The steps of the accept loop: one use of the resources, a look at the handles of the workers, or a
connection handed to a new worker. -/
inductive AcceptChange (b : Broker) : Broker → Prop
  | use {r : Resources} {phase : AcceptPhase} (huse : Use b.resources b.accept.held r phase.held)
      (hpermits : b.resources.permits ≤ r.permits ∨ permitsOf b.accept.held = 0)
      (hfrom : b.accept ≠ .notStarted ∧ b.accept ≠ .ended ∧ ∀ w, b.accept ≠ .push w)
      (hto : phase ≠ .notStarted ∧ ∀ w, phase ≠ .push w) :
      AcceptChange b { b with resources := r, accept := phase }
  | reap {phase : AcceptPhase} (hfrom : b.accept = .reap ∨ b.accept = .lastReap)
      (hto : phase = .accept ∨ phase = .ended) :
      AcceptChange b { b with workers := b.reapWorkers, accept := phase }
  | spawn {c : Connection} (hfrom : b.accept = .spawn c) : AcceptChange b { b with
      spawned := b.spawned + 1
      worker := Function.update b.worker b.spawned (.handshake c)
      accept := .push b.spawned }
  | push {w : ℕ} (hfrom : b.accept = .push w) :
      AcceptChange b { b with workers := b.workers ++ [w], accept := .check }

theorem accept_cases {b b' : Broker} {outcome : AcceptOutcome} (h : b.acceptStep outcome = some b') :
    AcceptChange b b' := by
  unfold Broker.acceptStep at h
  split at h
  · split at h
    case h_1 hphase =>
      cases h
      exact .use (.keep (by split <;> rw [hphase] <;> exact List.Perm.refl _)) (.inl le_rfl)
        (by simp [hphase]) (by split <;> simp)
    case h_2 hphase =>
      cases h
      exact .reap (.inl hphase) (.inl rfl)
    case h_3 hphase =>
      cases h
      exact .use (.open (by rw [hphase]; exact List.Perm.refl _)) (.inl le_rfl) (by simp [hphase])
        (by simp)
    case h_4 hphase =>
      cases h
      exact .use (.keep (by rw [hphase]; exact List.Perm.refl _)) (.inl le_rfl) (by simp [hphase])
        (by simp)
    case h_5 hphase =>
      split at h
      · cases h
        exact .use (.keep (by rw [hphase]; exact List.Perm.refl _)) (.inl le_rfl) (by simp [hphase])
          (by simp)
      · rename_i hfree
        cases h
        exact .use (.acquire (Nat.pos_of_ne_zero (not_or.mp hfree).1)
          (by rw [hphase]; exact List.Perm.refl _)) (.inr (by rw [hphase]; rfl)) (by simp [hphase])
          (by simp)
    case h_6 hphase =>
      split at h
      · cases h
        exact .use (.shut (by rw [hphase]; exact List.Perm.refl _)) (.inl le_rfl) (by simp [hphase])
          (by simp)
      · rename_i hopen
        cases h
        exact .use (.register (Bool.eq_false_iff.mpr hopen) (by rw [hphase]; exact clientDrops_perm))
          (.inl le_rfl) (by simp [hphase]) (by simp)
    case h_7 hphase =>
      cases h
      exact .spawn hphase
    case h_8 hphase =>
      cases h
      exact .push hphase
    case h_9 hphase =>
      cases h
      exact .use (.shut (by rw [hphase]; exact List.Perm.refl _)) (.inl le_rfl) (by simp [hphase])
        (by simp)
    case h_10 hphase =>
      cases h
      exact .use (.keep (by rw [hphase]; exact List.Perm.refl _)) (.inl le_rfl) (by simp [hphase])
        (by simp)
    case h_11 d ds hphase =>
      cases h
      exact .use (by rw [hphase]; exact use_drop _ d ds) (.inl (drop_permits _ d)) (by simp [hphase])
        (by simp)
    case h_12 hphase =>
      cases h
      exact .reap (.inr hphase) (.inr rfl)
    all_goals cases h
  · split at h
    case h_1 hphase =>
      cases h
      exact .use (.keep (by rw [hphase]; exact List.Perm.refl _)) (.inl le_rfl) (by simp [hphase])
        (by simp)
    all_goals cases h
  · split at h
    case h_5 => cases h
    all_goals rename_i hphase; cases h
    all_goals
      exact .use (.keep (by rw [hphase]; exact List.Perm.refl _)) (.inl le_rfl) (by simp [hphase])
        (by simp)

/-- A step of `stop` moves neither the accept loop nor a worker. -/
structure SameThreads (b b' : Broker) : Prop where
  accept : b'.accept = b.accept
  worker : b'.worker = b.worker
  spawned : b'.spawned = b.spawned

/-- The steps of `stop`. -/
inductive StopChange (b : Broker) : Broker → Prop
  | call (hphase : b.stop = .notCalled) : StopChange b { b with
      resources := { b.resources with closed := true }
      listening := false
      handle := false
      stop := .ready b.handle }
  | ready {handle : Bool} (hphase : b.stop = .ready handle) :
      StopChange b { b with readyStopped := true, stop := .take handle }
  | take {handle : Bool} (hphase : b.stop = .take handle) : StopChange b { b with
      resources := { b.resources with table := [] }
      stop := .shutting (b.resources.table.map Prod.snd) handle }
  | shut {taken : List ℕ} {handle : Bool} {socket : ℕ} (hphase : b.stop = .shutting taken handle)
      (hmem : socket ∈ taken) : StopChange b { b with
        resources := b.resources.shutDown socket
        stop := .shutting (taken.erase socket) handle }
  | shutAll {handle : Bool} (hphase : b.stop = .shutting [] handle) :
      StopChange b { b with stop := .joinAccept handle }
  | joinAccept {handle : Bool} (hphase : b.stop = .joinAccept handle)
      (hjoined : handle = true → b.accept = .ended) : StopChange b { b with stop := .takeWorkers }
  | takeWorkers (hphase : b.stop = .takeWorkers) :
      StopChange b { b with workers := [], stop := .joining b.workers }
  | join {w : ℕ} {ws : List ℕ} (hphase : b.stop = .joining (w :: ws)) (hended : b.worker w = .ended) :
      StopChange b { b with stop := .joining ws }
  | joined (hphase : b.stop = .joining []) : StopChange b { b with stop := .removing }
  | remove (hphase : b.stop = .removing) : StopChange b { b with stop := .returned }

theorem stop_cases {b b' : Broker} {socket : ℕ} (h : b.stopStep socket = some b') : StopChange b b' := by
  unfold Broker.stopStep at h
  split at h
  · cases h; exact .call ‹_›
  · cases h; exact .ready ‹_›
  · cases h; exact .take ‹_›
  · cases h; exact .shutAll ‹_›
  · obtain ⟨hmem, h⟩ := Option.ite_none_right_eq_some.mp h
    cases h
    exact .shut ‹_› hmem
  · obtain ⟨hjoined, h⟩ := Option.ite_none_left_eq_some.mp h
    cases h
    exact .joinAccept ‹_› fun hhandle => by_contra fun hne => hjoined ⟨hhandle, hne⟩
  · cases h; exact .takeWorkers ‹_›
  · cases h; exact .joined ‹_›
  · obtain ⟨hended, h⟩ := Option.ite_none_right_eq_some.mp h
    cases h
    exact .join ‹_› hended
  · cases h; exact .remove ‹_›
  · cases h

theorem StopChange.same {b b' : Broker} (h : StopChange b b') : SameThreads b b' := by
  cases h <;> exact ⟨rfl, rfl, rfl⟩

/-- What starting the accept loop changes. -/
theorem start_cases {b b' : Broker} {spawns : Bool} (h : b.startAccepting spawns = some b') :
    b.resources.closed = false ∧ b.listening = true ∧ b' = { b with
      listening := false
      handle := spawns
      accept := if spawns then .check else b.accept } := by
  obtain ⟨⟨hopen, hlistening⟩, h⟩ := Option.ite_none_right_eq_some.mp h
  exact ⟨hopen, hlistening, (Option.some.inj h).symm⟩

/-! ## The threads and their handles -/

/-- What the phase of `stop` says about the broker: it is closed, `wait_ready` is told, the table is empty,
and every thread that may still run has its handle somewhere. -/
structure Tracked (b : Broker) : Prop where
  unborn : ∀ w, b.spawned ≤ w → b.worker w = .unborn
  pushed : ∀ w, b.accept = .push w → w < b.spawned
  listener : b.listening = true → b.accept = .notStarted
  handled : b.stop = .notCalled → b.accept ≠ .notStarted → b.handle = true
  workers : ∀ w < b.spawned, b.worker w = .ended ∨ w ∈ b.workers ∨ b.accept = .push w ∨ w ∈ b.stop.joins
  stopped : b.stop ≠ .notCalled → b.resources.closed = true ∧ b.listening = false
  told : b.stop.Told → b.readyStopped = true
  emptied : b.stop.Emptied → b.resources.table = []
  joining : ∀ handle, b.stop.handle = some handle → b.accept ≠ .notStarted → handle = true
  joined : b.stop.Joined → b.accept = .notStarted ∨ b.accept = .ended
  drained : b.stop.Drained → b.workers = []

theorem StopPhase.Drained.joined {phase : StopPhase} (h : phase.Drained) : phase.Joined := by
  cases phase with
  | joining workers | removing | returned => trivial
  | _ => exact h.elim

theorem StopPhase.joined_of_mem_joins {phase : StopPhase} {w : ℕ} (h : w ∈ phase.joins) :
    phase.Joined := by
  cases phase with
  | joining workers => trivial
  | _ => exact absurd h List.not_mem_nil

theorem AcceptChange.running {b b' : Broker} (h : AcceptChange b b') :
    b.accept ≠ .notStarted ∧ b.accept ≠ .ended := by
  cases h with
  | use huse hpermits hfrom hto => exact ⟨hfrom.1, hfrom.2.1⟩
  | reap hfrom hto => rcases hfrom with hfrom | hfrom <;> simp [hfrom]
  | spawn hfrom => simp [hfrom]
  | push hfrom => simp [hfrom]

theorem AcceptChange.started {b b' : Broker} (h : AcceptChange b b') : b'.accept ≠ .notStarted := by
  cases h with
  | use huse hpermits hfrom hto => exact hto.1
  | reap hfrom hto => rcases hto with rfl | rfl <;> simp
  | spawn hfrom => simp
  | push hfrom => simp

/-- The threads do not touch what belongs to `stop`. -/
structure Unstopped (b b' : Broker) : Prop where
  stop : b'.stop = b.stop
  listening : b'.listening = b.listening
  handle : b'.handle = b.handle
  readyStopped : b'.readyStopped = b.readyStopped
  closed : b'.resources.closed = b.resources.closed
  table : b.resources.closed = true → b.resources.table = [] → b'.resources.table = []

theorem AcceptChange.unstopped {b b' : Broker} (h : AcceptChange b b') : Unstopped b b' := by
  cases h with
  | use huse hpermits hfrom hto => exact ⟨rfl, rfl, rfl, rfl, huse.closed, huse.table_nil⟩
  | reap hfrom hto => exact ⟨rfl, rfl, rfl, rfl, rfl, fun _ => id⟩
  | spawn hfrom => exact ⟨rfl, rfl, rfl, rfl, rfl, fun _ => id⟩
  | push hfrom => exact ⟨rfl, rfl, rfl, rfl, rfl, fun _ => id⟩

theorem Unstopped.emptied {b b' : Broker} (h : Unstopped b b') (hb : Tracked b)
    (hphase : b'.stop.Emptied) : b'.resources.table = [] := by
  rw [h.stop] at hphase
  refine h.table (hb.stopped ?_).1 (hb.emptied hphase)
  intro hstop
  rw [hstop] at hphase
  exact hphase

/-- **The accept loop keeps track of the threads.** -/
theorem AcceptChange.tracked {b b' : Broker} (h : AcceptChange b b') (hb : Tracked b) : Tracked b' := by
  have hsame := h.unstopped
  have hrunning := h.running
  have hjoined : ¬ b.stop.Joined := fun hphase =>
    (hb.joined hphase).elim hrunning.1 hrunning.2
  have hlistening : b.listening ≠ true := fun hl => hrunning.1 (hb.listener hl)
  have hmove (hunborn : ∀ w, b'.spawned ≤ w → b'.worker w = .unborn)
      (hpushed : ∀ w, b'.accept = .push w → w < b'.spawned)
      (hworkers : ∀ w < b'.spawned, b'.worker w = .ended ∨ w ∈ b'.workers ∨ b'.accept = .push w) :
      Tracked b' := by
    refine ⟨hunborn, hpushed, ?_, ?_, ?_, ?_, ?_, hsame.emptied hb, ?_, ?_, ?_⟩
    · rw [hsame.listening]
      exact fun hl => absurd hl hlistening
    · rw [hsame.stop, hsame.handle]
      exact fun hstop _ => hb.handled hstop hrunning.1
    · exact fun w hw => (hworkers w hw).imp_right (Or.imp_right Or.inl)
    · rw [hsame.stop, hsame.closed, hsame.listening]
      exact hb.stopped
    · rw [hsame.stop, hsame.readyStopped]
      exact hb.told
    · rw [hsame.stop]
      exact fun handle hhandle _ => hb.joining handle hhandle hrunning.1
    · rw [hsame.stop]
      exact fun hphase => absurd hphase hjoined
    · rw [hsame.stop]
      exact fun hphase => absurd (StopPhase.Drained.joined hphase) hjoined
  have hold : ∀ w < b.spawned, b.worker w = .ended ∨ w ∈ b.workers ∨ b.accept = .push w := by
    intro w hw
    rcases hb.workers w hw with hw | hw | hw | hw
    · exact .inl hw
    · exact .inr (.inl hw)
    · exact .inr (.inr hw)
    · exact absurd (StopPhase.joined_of_mem_joins hw) hjoined
  cases h with
  | use huse hpermits hfrom hto =>
    refine hmove hb.unborn (fun w hw => absurd hw (hto.2 w)) fun w hw => ?_
    rcases hold w hw with hw | hw | hw
    · exact .inl hw
    · exact .inr (.inl hw)
    · exact absurd hw (hfrom.2.2 w)
  | reap hfrom hto =>
    refine hmove hb.unborn (fun w hw => ?_) fun w hw => ?_
    · rcases hto with rfl | rfl <;> cases hw
    · rcases hold w hw with hw | hw | hw
      · exact .inl hw
      · by_cases hended : b.worker w = .ended
        · exact .inl hended
        · exact .inr (.inl (List.mem_filter.mpr ⟨hw, decide_eq_true hended⟩))
      · rcases hfrom with hfrom | hfrom <;> rw [hfrom] at hw <;> cases hw
  | spawn hfrom =>
    refine hmove (fun w hw => ?_) (fun w hw => ?_) fun w hw => ?_
    · have hne : w ≠ b.spawned := fun heq => absurd hw (by simp [heq])
      exact (Function.update_of_ne hne _ _).trans (hb.unborn w (Nat.le_of_succ_le hw))
    · cases hw
      exact Nat.lt_succ_self _
    · rcases Nat.lt_succ_iff_lt_or_eq.mp hw with hlt | rfl
      · rcases hold w hlt with hw | hw | hw
        · exact .inl ((Function.update_of_ne hlt.ne _ _).trans hw)
        · exact .inr (.inl hw)
        · rw [hfrom] at hw
          cases hw
      · exact .inr (.inr rfl)
  | push hfrom =>
    refine hmove hb.unborn (fun w hw => nomatch hw) fun w hw => ?_
    rcases hold w hw with hw | hw | hw
    · exact .inl hw
    · exact .inr (.inl (List.mem_append_left _ hw))
    · rw [hfrom] at hw
      cases hw
      exact .inr (.inl (List.mem_append_right _ (List.mem_singleton_self _)))

/-- **A worker keeps track of the threads.** -/
theorem worker_tracked {b b' : Broker} {w : ℕ} {outcome : WorkerOutcome}
    (h : b.workerStep w outcome = some b') (hb : Tracked b) : w < b.spawned ∧ Tracked b' := by
  obtain ⟨phase, r, ready, hnext, rfl⟩ := worker_cases h
  have huse := use_next hnext
  have hborn : w < b.spawned := by
    by_contra hle
    rw [hb.unborn w (not_lt.mp hle)] at hnext
    cases hnext
  have hrunning : b.worker w ≠ .ended := by
    intro hended
    rw [hended] at hnext
    cases hnext
  have hsame : Unstopped b { b with worker := Function.update b.worker w phase
                                    resources := r
                                    ready := b.ready || ready } :=
    ⟨rfl, rfl, rfl, rfl, huse.closed, huse.table_nil⟩
  refine ⟨hborn, fun v hv => ?_, hb.pushed, hb.listener, hb.handled, fun v hv => ?_, ?_, hb.told,
    hsame.emptied hb, hb.joining, hb.joined, hb.drained⟩
  · exact (Function.update_of_ne (hborn.trans_le hv).ne' _ _).trans (hb.unborn v hv)
  · by_cases hvw : v = w
    · subst hvw
      exact .inr ((hb.workers v hv).resolve_left hrunning)
    · rcases hb.workers v hv with hended | hv
      · exact .inl ((Function.update_of_ne hvw _ _).trans hended)
      · exact .inr hv
  · exact fun hstop => ⟨huse.closed.trans (hb.stopped hstop).1, (hb.stopped hstop).2⟩

/-- `stop` goes on to a phase for which the broker is as it should be. -/
theorem Tracked.advance {b : Broker} {phase : StopPhase} (hb : Tracked b) (hcalled : b.stop ≠ .notCalled)
    (hphase : phase ≠ .notCalled)
    (hworkers : ∀ w, w ∈ b.stop.joins → b.worker w = .ended ∨ w ∈ phase.joins)
    (htold : phase.Told → b.stop.Told) (hemptied : phase.Emptied → b.stop.Emptied)
    (hhandle : ∀ handle, phase.handle = some handle → b.stop.handle = some handle)
    (hjoined : phase.Joined → b.accept = .notStarted ∨ b.accept = .ended)
    (hdrained : phase.Drained → b.stop.Drained) : Tracked { b with stop := phase } where
  unborn := hb.unborn
  pushed := hb.pushed
  listener := hb.listener
  handled hstop := absurd hstop hphase
  workers w hw := by
    rcases hb.workers w hw with hw | hw | hw | hw
    · exact .inl hw
    · exact .inr (.inl hw)
    · exact .inr (.inr (.inl hw))
    · exact (hworkers w hw).imp_right fun hw => .inr (.inr hw)
  stopped _ := hb.stopped hcalled
  told h := hb.told (htold h)
  emptied h := hb.emptied (hemptied h)
  joining handle h := hb.joining handle (hhandle handle h)
  joined := hjoined
  drained h := hb.drained (hdrained h)

/-- **`stop` keeps track of the threads.** -/
theorem StopChange.tracked {b b' : Broker} (h : StopChange b b') (hb : Tracked b) : Tracked b' := by
  cases h with
  | call hphase =>
    refine ⟨hb.unborn, hb.pushed, by simp, by simp, fun w hw => ?_, fun _ => ⟨rfl, rfl⟩, False.elim,
      False.elim, fun handle hhandle hstarted => ?_, False.elim, False.elim⟩
    · simpa [hphase, StopPhase.joins] using hb.workers w hw
    · cases hhandle
      exact hb.handled hphase hstarted
  | ready hphase =>
    refine ⟨hb.unborn, hb.pushed, hb.listener, by simp, fun w hw => ?_,
      fun _ => hb.stopped (by simp [hphase]), fun _ => rfl, False.elim, fun handle hhandle => ?_,
      False.elim, False.elim⟩
    · simpa [hphase, StopPhase.joins] using hb.workers w hw
    · cases hhandle
      exact hb.joining _ (by rw [hphase]; rfl)
  | take hphase =>
    refine ⟨hb.unborn, hb.pushed, hb.listener, by simp, fun w hw => ?_,
      fun _ => hb.stopped (by simp [hphase]), fun _ => hb.told (by rw [hphase]; trivial), fun _ => rfl,
      fun handle hhandle => ?_, False.elim, False.elim⟩
    · simpa [hphase, StopPhase.joins] using hb.workers w hw
    · cases hhandle
      exact hb.joining _ (by rw [hphase]; rfl)
  | @shut taken handle socket hphase hmem =>
    have hadvance : Tracked { b with stop := .shutting (taken.erase socket) handle } := by
      refine hb.advance ?_ ?_ ?_ ?_ ?_ ?_ ?_ ?_ <;>
        simp [hphase, StopPhase.joins, StopPhase.Told, StopPhase.Emptied, StopPhase.handle,
          StopPhase.Joined, StopPhase.Drained]
    exact ⟨hadvance.unborn, hadvance.pushed, hadvance.listener, hadvance.handled, hadvance.workers,
      hadvance.stopped, hadvance.told, hadvance.emptied, hadvance.joining, hadvance.joined,
      hadvance.drained⟩
  | shutAll hphase =>
    refine hb.advance ?_ ?_ ?_ ?_ ?_ ?_ ?_ ?_ <;>
      simp [hphase, StopPhase.joins, StopPhase.Told, StopPhase.Emptied, StopPhase.handle,
        StopPhase.Joined, StopPhase.Drained]
  | joinAccept hphase hjoined =>
    have haccept : b.accept = .notStarted ∨ b.accept = .ended := by
      by_cases hstarted : b.accept = .notStarted
      · exact .inl hstarted
      · exact .inr (hjoined (hb.joining _ (by rw [hphase]; rfl) hstarted))
    refine hb.advance ?_ ?_ ?_ ?_ ?_ ?_ (fun _ => haccept) ?_ <;>
      simp [hphase, StopPhase.joins, StopPhase.Told, StopPhase.Emptied, StopPhase.handle,
        StopPhase.Drained]
  | takeWorkers hphase =>
    refine ⟨hb.unborn, hb.pushed, hb.listener, by simp, fun w hw => ?_,
      fun _ => hb.stopped (by simp [hphase]), fun _ => hb.told (by rw [hphase]; trivial),
      fun _ => hb.emptied (by rw [hphase]; trivial), by simp [StopPhase.handle],
      fun _ => hb.joined (by rw [hphase]; trivial), fun _ => rfl⟩
    rcases hb.workers w hw with hw | hw | hw | hw
    · exact .inl hw
    · exact .inr (.inr (.inr hw))
    · exact .inr (.inr (.inl hw))
    · rw [hphase] at hw
      exact absurd hw List.not_mem_nil
  | join hphase hended =>
    refine hb.advance ?_ ?_ (fun w hw => ?_) ?_ ?_ ?_ (fun _ => hb.joined (by rw [hphase]; trivial)) ?_
    case refine_3 =>
      rw [hphase] at hw
      rcases List.mem_cons.mp hw with rfl | hw
      · exact .inl hended
      · exact .inr hw
    all_goals simp [hphase, StopPhase.Told, StopPhase.Emptied, StopPhase.handle, StopPhase.Drained]
  | joined hphase =>
    refine hb.advance ?_ ?_ ?_ ?_ ?_ ?_ (fun _ => hb.joined (by rw [hphase]; trivial)) ?_ <;>
      simp [hphase, StopPhase.joins, StopPhase.Told, StopPhase.Emptied, StopPhase.handle,
        StopPhase.Drained]
  | remove hphase =>
    refine hb.advance ?_ ?_ ?_ ?_ ?_ ?_ (fun _ => hb.joined (by rw [hphase]; trivial)) ?_ <;>
      simp [hphase, StopPhase.joins, StopPhase.Told, StopPhase.Emptied, StopPhase.handle,
        StopPhase.Drained]

/-- Starting the accept loop keeps track of the threads. -/
theorem start_tracked {b b' : Broker} {spawns : Bool} (h : b.startAccepting spawns = some b')
    (hb : Tracked b) : Tracked b' := by
  obtain ⟨hopen, hlistening, rfl⟩ := start_cases h
  have hstop : b.stop = .notCalled := by
    by_contra hcalled
    exact Bool.false_ne_true (hopen.symm.trans (hb.stopped hcalled).1)
  have haccept := hb.listener hlistening
  refine ⟨hb.unborn, fun w => ?_, by simp, fun _ => ?_, fun w hw => ?_, fun h => absurd hstop h, hb.told,
    hb.emptied, ?_, ?_, hb.drained⟩
  · cases spawns <;> simp [haccept]
  · cases spawns <;> simp [haccept]
  · refine (hb.workers w hw).imp_right (Or.imp_right (Or.imp_left fun hpush => ?_))
    rw [haccept] at hpush
    cases hpush
  · simp [hstop, StopPhase.handle]
  · simp [hstop, StopPhase.Joined]

theorem tracked_step {b b' : Broker} {event : BrokerEvent} (h : step b event = some b')
    (hb : Tracked b) : Tracked b' := by
  cases event with
  | start spawns => exact start_tracked h hb
  | accept outcome => exact (accept_cases h).tracked hb
  | worker w outcome => exact (worker_tracked h hb).2
  | stop socket => exact (stop_cases h).tracked hb

/-! ## Permits and registrations -/

/-- The accept loop and the workers. -/
def Broker.actors (b : Broker) : Finset (Option ℕ) := Finset.insertNone (Finset.range b.spawned)

/-- The client connections that hold a permit: the one that the accept loop sets up, and those that the
workers serve. -/
def Broker.connections (b : Broker) : Finset (Option ℕ) :=
  b.actors.filter fun a => .permit ∈ b.held a

/-- What a step does to what the threads hold: one thread uses the resources, the accept loop hands all
it holds to a new worker, or nobody's changes. -/
inductive Move (b b' : Broker) : Prop
  | use (a : Option ℕ) (after : List Held) (ha : a ∈ b.actors)
      (huse : Use b.resources (b.held a) b'.resources after)
      (hpermits : b.resources.permits ≤ b'.resources.permits ∨ permitsOf (b.held a) = 0)
      (hheld : b'.held = Function.update b.held a after) (hspawned : b'.spawned = b.spawned)
      (hstop : b'.stop = b.stop)
  | handOver (hheld : b'.held = b.held ∘ Equiv.swap none (some b.spawned))
      (hspawned : b'.spawned = b.spawned + 1) (hresources : b'.resources = b.resources)
      (hstop : b'.stop = b.stop)
  | same (hheld : b'.held = b.held) (hspawned : b'.spawned = b.spawned)
      (hpermits : b'.resources.permits = b.resources.permits)
      (hcovered : Covered b.resources b.stop.taken b.held →
        Covered b'.resources b'.stop.taken b.held)

theorem held_update_none (b : Broker) (phase : AcceptPhase) :
    ({ b with accept := phase } : Broker).held = Function.update b.held none phase.held := by
  funext a
  cases a with
  | none => rw [Function.update_self]; rfl
  | some w => rw [Function.update_of_ne (by simp)]; rfl

theorem held_update_some (b : Broker) (w : ℕ) (phase : WorkerPhase) :
    ({ b with worker := Function.update b.worker w phase } : Broker).held =
      Function.update b.held (some w) phase.held := by
  funext a
  cases a with
  | none => rw [Function.update_of_ne (by simp)]; rfl
  | some v =>
    by_cases hv : v = w
    · subst hv
      rw [Function.update_self]
      exact congrArg WorkerPhase.held (Function.update_self ..)
    · rw [Function.update_of_ne (by simpa using hv)]
      exact congrArg WorkerPhase.held (Function.update_of_ne hv _ _)

theorem AcceptChange.move {b b' : Broker} (h : AcceptChange b b') (hb : Tracked b) : Move b b' := by
  have hnone : none ∈ b.actors := Finset.none_mem_insertNone
  cases h with
  | use huse hpermits hfrom hto =>
    exact .use none _ hnone huse hpermits (held_update_none b _) rfl rfl
  | @reap phase hfrom hto =>
    have hfrom' : b.held none = [] := by
      rcases hfrom with hfrom | hfrom <;> exact congrArg AcceptPhase.held hfrom
    have hto' : phase.held = [] := by rcases hto with rfl | rfl <;> rfl
    exact .use none _ hnone (.keep (by rw [hfrom', hto'])) (.inl le_rfl) (held_update_none b phase) rfl rfl
  | @spawn c hfrom =>
    refine .handOver ?_ rfl rfl rfl
    have hheld : b.held none = clientDrops c := congrArg AcceptPhase.held hfrom
    have hnew : b.held (some b.spawned) = [] := congrArg WorkerPhase.held (hb.unborn _ le_rfl)
    funext a
    rw [Function.comp_apply]
    cases a with
    | none => rw [Equiv.swap_apply_left, hnew]; rfl
    | some w =>
      by_cases hw : w = b.spawned
      · rw [hw, Equiv.swap_apply_right, hheld]
        exact congrArg WorkerPhase.held (Function.update_self b.spawned (.handshake c) b.worker)
      · rw [Equiv.swap_apply_of_ne_of_ne (by simp) (by simpa using hw)]
        exact congrArg WorkerPhase.held (Function.update_of_ne hw _ _)
  | push hfrom =>
    have hfrom' : b.held none = [] := congrArg AcceptPhase.held hfrom
    exact .use none _ hnone (.keep (by rw [hfrom']; exact List.Perm.refl _)) (.inl le_rfl)
      (held_update_none b .check) rfl rfl

theorem worker_move {b b' : Broker} {w : ℕ} {outcome : WorkerOutcome}
    (h : b.workerStep w outcome = some b') (hb : Tracked b) : Move b b' := by
  have hborn := (worker_tracked h hb).1
  obtain ⟨phase, r, ready, hnext, rfl⟩ := worker_cases h
  exact .use (some w) _ (Finset.some_mem_insertNone.mpr (Finset.mem_range.mpr hborn)) (use_next hnext)
    (.inl (next_permits hnext)) (held_update_some b w phase) rfl rfl

theorem StopChange.move {b b' : Broker} (h : StopChange b b') : Move b b' := by
  cases h with
  | call hphase =>
    refine .same rfl rfl rfl fun hcovered => ?_
    rw [hphase] at hcovered
    exact hcovered.congr (fun _ _ _ => rfl) rfl rfl fun _ => id
  | take hphase =>
    refine .same rfl rfl rfl fun hcovered => ?_
    rw [hphase] at hcovered
    have htake := hcovered.take
    rwa [show StopPhase.taken (.take _) = [] from rfl, List.append_nil] at htake
  | @shut taken handle socket hphase hmem =>
    refine .same rfl rfl rfl fun hcovered => ?_
    rw [hphase] at hcovered
    exact hcovered.shut_taken socket
  | ready hphase | shutAll hphase | joinAccept hphase | takeWorkers hphase | join hphase
  | joined hphase | remove hphase =>
    refine .same rfl rfl rfl fun hcovered => ?_
    rw [hphase] at hcovered
    exact hcovered

theorem start_move {b b' : Broker} {spawns : Bool} (h : b.startAccepting spawns = some b')
    (hb : Tracked b) : Move b b' := by
  obtain ⟨-, hlistening, rfl⟩ := start_cases h
  refine .same (funext fun a => ?_) rfl rfl id
  cases a with
  | none => cases spawns <;> simp [Broker.held, hb.listener hlistening, AcceptPhase.held]
  | some w => rfl

/-- **Every step is one move.** -/
theorem move_of_step {b b' : Broker} {event : BrokerEvent} (h : step b event = some b')
    (hb : Tracked b) : Move b b' := by
  cases event with
  | start spawns => exact start_move h hb
  | accept outcome => exact (accept_cases h).move hb
  | worker w outcome => exact worker_move h hb
  | stop socket => exact (stop_cases h).move

/-- The permits that are left and those that the threads hold are all there are, a thread holds at most
one, and every registration is answered for. -/
structure Budgeted (limit : ℕ) (b : Broker) : Prop where
  total : b.resources.permits + ∑ a ∈ b.actors, permitsOf (b.held a) = limit
  single : ∀ a, permitsOf (b.held a) ≤ 1
  covered : Covered b.resources b.stop.taken b.held

theorem sum_permits_update {s : Finset (Option ℕ)} (held : Option ℕ → List Held) {a : Option ℕ}
    (ha : a ∈ s) (after : List Held) :
    ∑ x ∈ s, permitsOf (Function.update held a after x) + permitsOf (held a) =
      ∑ x ∈ s, permitsOf (held x) + permitsOf after := by
  have hrest : ∑ x ∈ s.erase a, permitsOf (Function.update held a after x) =
      ∑ x ∈ s.erase a, permitsOf (held x) :=
    Finset.sum_congr rfl fun x hx => by rw [Function.update_of_ne (Finset.ne_of_mem_erase hx)]
  rw [← Finset.add_sum_erase s _ ha, ← Finset.add_sum_erase s (fun x => permitsOf (held x)) ha, hrest,
    Function.update_self]
  omega

/-- **A move stays within the budget and leaves every registration answered for.** -/
theorem Move.budgeted {limit : ℕ} {b b' : Broker} (h : Move b b') (hb : Tracked b)
    (hbudget : Budgeted limit b) : Budgeted limit b' := by
  have htotal := hbudget.total
  cases h with
  | use a after ha huse hpermits hheld hspawned hstop =>
    have hactors : b'.actors = b.actors := by rw [Broker.actors, hspawned]; rfl
    have hkept := permits_use huse
    refine ⟨?_, fun x => ?_, ?_⟩
    · have hsum := sum_permits_update b.held ha after
      rw [hactors, hheld]
      omega
    · rw [hheld]
      by_cases hx : x = a
      · rw [hx, Function.update_self]
        have hsingle := hbudget.single a
        rcases hpermits with hle | hnone
        · omega
        · exact huse.permitsOf_le.trans (by omega)
      · rw [Function.update_of_ne hx]
        exact hbudget.single x
    · rw [hheld, hstop]
      exact hbudget.covered.use huse
  | handOver hheld hspawned hresources hstop =>
    have hnew : permitsOf (b.held (some b.spawned)) = 0 := by
      rw [show b.held (some b.spawned) = [] from congrArg WorkerPhase.held (hb.unborn _ le_rfl)]
      rfl
    refine ⟨?_, fun x => ?_, ?_⟩
    · have hothers : ∑ w ∈ Finset.range b.spawned, permitsOf (b'.held (some w)) =
          ∑ w ∈ Finset.range b.spawned, permitsOf (b.held (some w)) := by
        refine Finset.sum_congr rfl fun w hw => ?_
        rw [hheld, Function.comp_apply, Equiv.swap_apply_of_ne_of_ne (by simp)
          (by simpa using (Finset.mem_range.mp hw).ne)]
      rw [Broker.actors, Finset.sum_insertNone] at htotal ⊢
      rw [hspawned, Finset.sum_range_succ, hothers, hresources, hheld, Function.comp_apply,
        Function.comp_apply, Equiv.swap_apply_left, Equiv.swap_apply_right]
      omega
    · rw [hheld]
      exact hbudget.single _
    · rw [hheld, hresources, hstop]
      exact hbudget.covered.comp _
  | same hheld hspawned hpermits hcovered =>
    refine ⟨?_, ?_, ?_⟩
    · rw [hheld, hpermits, Broker.actors, hspawned]
      exact htotal
    · rw [hheld]
      exact hbudget.single
    · rw [hheld]
      exact hcovered hbudget.covered

/-- The permits of the threads are their connections. -/
theorem Budgeted.conserved {limit : ℕ} {b : Broker} (h : Budgeted limit b) :
    b.resources.permits + b.connections.card = limit := by
  have hcard : b.connections.card = ∑ a ∈ b.actors, permitsOf (b.held a) := by
    rw [Broker.connections, Finset.card_filter]
    refine Finset.sum_congr rfl fun a _ => ?_
    have hsingle := h.single a
    by_cases hmem : Held.permit ∈ b.held a
    · rw [if_pos hmem]
      exact le_antisymm (List.one_le_count_iff.mpr hmem) hsingle
    · rw [if_neg hmem]
      exact (List.count_eq_zero_of_not_mem hmem).symm
  rw [hcard]
  exact h.total

/-! ## What holds once `stop` has returned -/

theorem tracked_bind (limit : ℕ) : Tracked (Broker.bind limit) where
  unborn _ _ := rfl
  pushed _ h := nomatch h
  listener _ := rfl
  handled _ h := absurd rfl h
  workers w h := absurd h (Nat.not_lt_zero w)
  stopped h := absurd rfl h
  told := False.elim
  emptied := False.elim
  joining _ _ h := absurd rfl h
  joined := False.elim
  drained := False.elim

theorem budgeted_bind (limit : ℕ) : Budgeted limit (Broker.bind limit) := by
  have hnone (a : Option ℕ) : (Broker.bind limit).held a = [] := by cases a <;> rfl
  refine ⟨?_, fun a => ?_, ⟨fun a id socket h => ?_, fun a id socket => ?_, fun a c id s s' h => ?_,
    fun a id socket h => ?_, fun id socket h => absurd h List.not_mem_nil⟩⟩
  · simp only [hnone]
    simp [permitsOf, Broker.bind]
  · simp [hnone, permitsOf]
  · simp [hnone] at h
  · simp [hnone]
  · simp [hnone] at h
  · simp [hnone] at h

/-- **Every run stays within the budget and keeps track of its threads.** -/
theorem invariant_of_run {limit : ℕ} {b : Broker} {events : List BrokerEvent}
    (hrun : run step (Broker.bind limit) events = some b) : Tracked b ∧ Budgeted limit b :=
  run_invariant (P := fun b => Tracked b ∧ Budgeted limit b)
    (fun hstep hb => ⟨tracked_step hstep hb.1, (move_of_step hstep hb.1).budgeted hb.1 hb.2⟩) hrun
    ⟨tracked_bind limit, budgeted_bind limit⟩

/-- **Once `stop` has shut down what it took, no relay moves an octet**, although the workers may still
run. -/
theorem relay_silenced {limit : ℕ} {b : Broker} {events : List BrokerEvent}
    (hrun : run step (Broker.bind limit) events = some b) (hemptied : b.stop.Emptied)
    (htaken : b.stop.taken = []) (w : ℕ) (toClient : Bool) : b.workerStep w (.octets toClient) = none := by
  obtain ⟨htracked, hbudget⟩ := invariant_of_run hrun
  have hshut (id socket : ℕ) (h : .registration id socket ∈ b.held (some w)) :
      b.resources.shut socket = true := by
    have hanswered := hbudget.covered.answered (some w) id socket h
    rw [htracked.emptied hemptied, htaken] at hanswered
    simpa using hanswered
  cases hphase : b.worker w with
  | relay c u =>
    have hheld : b.held (some w) = originDrops u ++ clientDrops c := congrArg WorkerPhase.held hphase
    have hclient := hshut c.id c.socket (by rw [hheld]; simp [clientDrops])
    have horigin := hshut u.id u.socket (by rw [hheld]; simp [originDrops])
    cases toClient <;> simp [Broker.workerStep, hphase, WorkerPhase.next, hclient, horigin]
  | dropping drops next =>
    rw [Broker.workerStep, hphase]
    rcases drops with _ | ⟨d, drops⟩ <;> rcases next with _ | c <;> rfl
  | _ => rw [Broker.workerStep, hphase]; rfl

/-- A worker that serves a client: it has not dropped the connection, nor begun to. -/
def WorkerPhase.serves : WorkerPhase → Bool
  | unborn | ended | dropping _ none => false
  | _ => true

def Broker.serving (b : Broker) : Finset ℕ :=
  (Finset.range b.spawned).filter fun w => (b.worker w).serves

theorem permit_of_serves {phase : WorkerPhase} (h : phase.serves = true) : .permit ∈ phase.held := by
  cases phase with
  | unborn | ended => cases h
  | dropping drops next =>
    cases next with
    | none => cases h
    | some c => simp [WorkerPhase.held, clientDrops]
  | _ => simp [WorkerPhase.held, clientDrops]

theorem serving_card_le (b : Broker) : b.serving.card ≤ b.connections.card := by
  refine Finset.card_le_card_of_injOn some (fun w hw => ?_) (Option.some_injective ℕ).injOn
  obtain ⟨hw, hserves⟩ := Finset.mem_filter.mp hw
  exact Finset.mem_coe.mpr
    (Finset.mem_filter.mpr ⟨Finset.some_mem_insertNone.mpr hw, permit_of_serves hserves⟩)

/-- No descriptor of the socket is left, neither with a thread nor in the table. -/
def Broker.Closed (b : Broker) (socket : ℕ) : Prop :=
  (∀ a, .descriptor socket ∉ b.held a) ∧ socket ∉ b.resources.table.map Prod.snd

/-- Every thread has ended, and nothing is left with it. -/
structure Broker.Over (b : Broker) : Prop where
  accept : b.accept = .notStarted ∨ b.accept = .ended
  workers : ∀ w < b.spawned, b.worker w = .ended
  table : b.resources.table = []
  sockets : ∀ socket, b.resources.shut socket = true ∨ b.Closed socket
  stuck : Stuck step b
  waitReady : ∀ expired, b.waitReady expired ≠ some true

theorem Tracked.over {b : Broker} (hb : Tracked b) (hstop : b.stop = .returned) : b.Over := by
  have haccept := hb.joined (by rw [hstop]; trivial)
  have htable := hb.emptied (by rw [hstop]; trivial)
  have htold := hb.told (by rw [hstop]; trivial)
  have hclosed := (hb.stopped (by simp [hstop])).1
  have hended : ∀ w < b.spawned, b.worker w = .ended := by
    intro w hw
    rcases hb.workers w hw with hw | hw | hw | hw
    · exact hw
    · rw [hb.drained (by rw [hstop]; trivial)] at hw
      exact absurd hw List.not_mem_nil
    · rcases haccept with haccept | haccept <;> rw [haccept] at hw <;> cases hw
    · rw [hstop] at hw
      exact absurd hw List.not_mem_nil
  have hover (w : ℕ) : b.worker w = .ended ∨ b.worker w = .unborn :=
    (lt_or_ge w b.spawned).imp (hended w) (hb.unborn w)
  refine ⟨haccept, hended, htable, fun socket => .inr ⟨fun a => ?_, ?_⟩, fun event => ?_,
    fun expired => ?_⟩
  · cases a with
    | none => rcases haccept with h | h <;> simp [Broker.held, h, AcceptPhase.held]
    | some w => rcases hover w with h | h <;> simp [Broker.held, h, WorkerPhase.held]
  · simp [htable]
  · cases event with
    | start spawns => exact if_neg fun h => Bool.false_ne_true (h.1.symm.trans hclosed)
    | accept outcome => rcases haccept with h | h <;> cases outcome <;> simp [step, Broker.acceptStep, h]
    | worker w outcome =>
      rcases hover w with h | h <;> simp [step, Broker.workerStep, h, WorkerPhase.next]
    | stop socket => simp [step, Broker.stopStep, hstop]
  · simp [Broker.waitReady, htold]

/-- **Stopping the broker is complete and its budget is conserved.** In every interleaving the permits
that are left and the connections that hold one make up the limit, so that no more clients are served at
once. When `stop` has returned, every thread has ended and every socket is closed, and nothing happens any
more: no connection is accepted, no octet relayed, and the broker is never reported ready. -/
theorem broker_stop {limit : ℕ} {b : Broker} {events : List BrokerEvent}
    (hrun : run step (Broker.bind limit) events = some b) :
    b.resources.permits + b.connections.card = limit ∧ b.serving.card ≤ limit ∧
      (b.stop = .returned → b.Over) := by
  obtain ⟨htracked, hbudget⟩ := invariant_of_run hrun
  have hconserved := hbudget.conserved
  refine ⟨hconserved, ?_, htracked.over⟩
  have hserving := serving_card_le b
  omega

/-- A broker for one client that is stopped when the client is being served. -/
def stoppedHandshake : List BrokerEvent :=
  .start true :: List.replicate 7 (.accept .go) ++ List.replicate 3 (.stop 0) ++ [.worker 0 .fail] ++
    List.replicate 2 (.stop 0) ++ List.replicate 5 (.worker 0 .go) ++ List.replicate 3 (.accept .go) ++
    List.replicate 4 (.stop 0)

/-- The broker ends with its permit, and nothing is left of the client. -/
theorem broker_stop_handshake : ∃ b, run step (Broker.bind 1) stoppedHandshake = some b ∧
    b.resources.permits + b.connections.card = 1 ∧ b.resources.opened = 1 ∧ b.Over := by
  have heval : (run step (Broker.bind 1) stoppedHandshake).any (fun b => b.stop = .returned &&
      b.resources.opened = 1) = true := by
    decide +kernel
  obtain ⟨b, hrun, hb⟩ := (Option.any_eq_true _ _).mp heval
  rw [Bool.and_eq_true, decide_eq_true_eq, decide_eq_true_eq] at hb
  have hstop := broker_stop hrun
  exact ⟨b, hrun, hstop.1, hb.2, hstop.2.2 hb.1⟩

end Vhrn.Cli.BrokerStop
