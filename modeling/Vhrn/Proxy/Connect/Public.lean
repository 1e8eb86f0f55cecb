import Vhrn.Foundations.Keeps
import Vhrn.Proxy.Connect.Pool
import Vhrn.Proxy.Connect.Registry
import Vhrn.Proxy.Diagnostics

/-!
# Public connections

Validated numeric connection setup. A `GloballyRoutableIp` carries the proof that the registries accept
its address, and `ValidatedAnswers` that there are candidates and not too many of them, so what reaches
the dialer is safe by its type. An answer list with one unsafe address has no validated form.
-/

namespace Vhrn.Proxy

open Traced

/-! ## What awaiting gives -/

/-- How an operation under a deadline ends. -/
inductive Awaited (α : Type)
  | done (value : α)
  | failed
  | deadlineExceeded
  | cancelled

/-- A socket address as a name resolution returns it. -/
inductive SocketAddr
  | v4 (address : Ipv4Addr) (port : UInt16)
  | v6 (address : Ipv6Addr) (port : UInt16) (scopeId : UInt32)
  deriving DecidableEq

/-- What a connection attempt meets: whether a connection slot is free, how the name resolves, and how
the dial of each candidate ends, with a number for the connection it opens. -/
structure ConnectEnv where
  permit : Bool
  resolution : Awaited (List SocketAddr)
  dials : ℕ → Awaited ℕ

/-! ## Validated addresses -/

def maxDnsAnswers : ℕ := 64

inductive PublicConnectError
  | policyDenied
  | unavailable
  | deadlineExceeded
  | cancelled
  | exhausted
  deriving DecidableEq, Repr

/-- One resolver result with scope metadata retained until validation. -/
structure ResolvedAddress where
  address : IpAddr
  scopeId : UInt32
  deriving DecidableEq

def ResolvedAddress.fromSocket : SocketAddr → ResolvedAddress
  | .v4 address _ => { address := .v4 address, scopeId := 0 }
  | .v6 address _ scopeId => { address := .v6 address, scopeId }

/-- One answer more than a connection accepts is kept. -/
def systemResolve (answers : List SocketAddr) : List ResolvedAddress :=
  (answers.take (maxDnsAnswers + 1)).map ResolvedAddress.fromSocket

/-- An address which is safe for a public origin dial. -/
structure GloballyRoutableIp where
  address : IpAddr
  isGlobal : ipIsGlobal address = true

namespace GloballyRoutableIp

def new (address : IpAddr) : Option GloballyRoutableIp :=
  if h : ipIsGlobal address = true then some ⟨address, h⟩ else none

theorem routable (ip : GloballyRoutableIp) : GloballyRoutable ip.address :=
  (ipIsGlobal_iff ip.address).mp ip.isGlobal

theorem new_eq_some {address : IpAddr} {ip : GloballyRoutableIp} (h : new address = some ip) :
    ip.address = address := by
  obtain ⟨_, hip⟩ := Option.dite_none_right_eq_some.mp h
  rw [← Option.some.inj hip]

end GloballyRoutableIp

/-- The candidates of one connection attempt. -/
structure ValidatedAnswers where
  candidates : List GloballyRoutableIp
  nonempty : candidates ≠ []
  bounded : candidates.length ≤ maxDnsAnswers

namespace ValidatedAnswers

def validate (answer : ResolvedAddress) : Except PublicConnectError GloballyRoutableIp :=
  if answer.scopeId ≠ 0 then .error .policyDenied
  else match GloballyRoutableIp.new answer.address with
    | some address => .ok address
    | none => .error .policyDenied

theorem validate_eq_ok {answer : ResolvedAddress} {ip : GloballyRoutableIp}
    (h : validate answer = .ok ip) : answer.scopeId = 0 ∧ ip.address = answer.address := by
  unfold validate at h
  split at h
  · cases h
  · rename_i hscope
    split at h
    · rename_i ip' hnew
      obtain rfl := Except.ok.inj h
      exact ⟨not_not.mp hscope, GloballyRoutableIp.new_eq_some hnew⟩
    · cases h

def fromDns (answers : List ResolvedAddress) : Except PublicConnectError ValidatedAnswers :=
  if hempty : answers = [] then .error .unavailable
  else if hmany : maxDnsAnswers < answers.length then .error .policyDenied
  else match h : answers.mapM validate with
    | .ok candidates =>
      have hlength := (mapM_eq_ok.mp h).length_eq
      .ok ⟨candidates, fun hc => hempty (List.length_eq_zero_iff.mp (by simp [hlength, hc])),
        hlength ▸ Nat.not_lt.mp hmany⟩
    | .error error => .error error

def fromLiteral (address : IpAddr) : Except PublicConnectError ValidatedAnswers :=
  match GloballyRoutableIp.new address with
  | some ip => .ok ⟨[ip], List.cons_ne_nil ip [], Nat.le_add_left 1 63⟩
  | none => .error .policyDenied

end ValidatedAnswers

/-! ## Opening a connection -/

/-- The candidates of a target. -/
def answersFor (target : PublicTarget) (env : ConnectEnv) :
    Traced Event (Except PublicConnectError ValidatedAnswers) :=
  match target.host with
  | .ip address => return ValidatedAnswers.fromLiteral address
  | .dns _ => do
    emit (.resolve target.host.display target.port)
    match env.resolution with
    | .done answers => return ValidatedAnswers.fromDns (systemResolve answers)
    | .failed => return .error .unavailable
    | .deadlineExceeded => return .error .deadlineExceeded
    | .cancelled => return .error .cancelled

/-- Dials the candidates in order until one accepts, the budget is spent or the dial is cancelled. -/
def dialEach (port : Port) (dials : ℕ → Awaited ℕ) :
    ℕ → List GloballyRoutableIp → Traced Event (Except PublicConnectError PublicStream)
  | _, [] => return .error .unavailable
  | index, ip :: candidates => do
    emit (.dial ip.address port)
    match dials index with
    | .done id => return .ok ⟨ip.address, port, id⟩
    | .failed => dialEach port dials (index + 1) candidates
    | .deadlineExceeded => return .error .deadlineExceeded
    | .cancelled => return .error .cancelled

def openWithBudget (target : PublicTarget) (env : ConnectEnv) :
    Traced Event (Except PublicConnectError PublicStream) := do
  if target.hasIpv6Scope then return .error .policyDenied
  match ← answersFor target env with
  | .ok answers => dialEach target.port env.dials 0 answers.candidates
  | .error error => return .error error

/-- Opens a connection to a target, if a connection slot is free. -/
def openTarget (target : PublicTarget) (env : ConnectEnv) :
    Traced Event (Except PublicConnectError PublicStream) :=
  if !env.permit then return .error .exhausted else openWithBudget target env

/-! ## Pooled connections -/

/-- A raw checked origin stream plus bytes already read from it. -/
structure HttpOrigin (S : Type) where
  io : S
  buffered : Bytes

def HttpOrigin.new {S : Type} (io : S) : HttpOrigin S := { io, buffered := [] }

def originReusable {S : Type} (origin : HttpOrigin S) : Bool := origin.buffered.isEmpty

abbrev PublicPool := IdlePool OriginKey (HttpOrigin PublicStream)

/-- A pooled origin of the target, or a new one. -/
def checkout (target : PublicTarget) (pool : PublicPool) (now : ℕ) (env : ConnectEnv) :
    Traced Event (Except PublicConnectError (HttpOrigin PublicStream) × PublicPool) :=
  let key := OriginKey.fromTarget target
  match pool.takeIfReusable key originReusable now with
  | (some origin, pool) => do
    emit (.reuse key origin.io)
    return (.ok origin, pool)
  | (none, pool) => do
    let stream ← openTarget target env
    return (stream.map HttpOrigin.new, pool)

/-! ## What is dialled -/

/-- The address is a safe candidate of the target: the address it names, or one of the answers for its
name, of which there are some, not too many, and none unsafe. -/
inductive Candidate (target : PublicTarget) (env : ConnectEnv) (address : IpAddr) : Prop
  | literal (h : target.host = .ip address)
  | answer {name : DomainName} {answers : List SocketAddr} (h : target.host = .dns name)
    (resolved : env.resolution = .done answers) (bounded : answers.length ≤ maxDnsAnswers)
    (mem : ∃ answer ∈ answers, (ResolvedAddress.fromSocket answer).address = address)
    (safe : ∀ answer ∈ answers, (ResolvedAddress.fromSocket answer).scopeId = 0 ∧
      GloballyRoutable (ResolvedAddress.fromSocket answer).address)

/-- What a dial of a target keeps to. -/
structure DialGate (target : PublicTarget) (env : ConnectEnv) (address : IpAddr) (port : Port) :
    Prop where
  unscoped : target.ipv6Scope = none
  port : port = target.port
  candidate : Candidate target env address
  routable : GloballyRoutable address

theorem fromDns_eq_ok {answers : List ResolvedAddress} {validated : ValidatedAnswers}
    (h : ValidatedAnswers.fromDns answers = .ok validated) :
    answers.length ≤ maxDnsAnswers ∧
      answers.mapM ValidatedAnswers.validate = .ok validated.candidates := by
  unfold ValidatedAnswers.fromDns at h
  split at h
  · cases h
  · split at h
    · cases h
    · rename_i hmany
      split at h
      · rename_i candidates hmap
        obtain rfl := Except.ok.inj h
        exact ⟨Nat.not_lt.mp hmany, hmap⟩
      · cases h

/-- Validated answers are all of the answers. -/
theorem systemResolve_of_length {answers : List SocketAddr}
    (h : (systemResolve answers).length ≤ maxDnsAnswers) :
    answers.length ≤ maxDnsAnswers ∧ systemResolve answers = answers.map .fromSocket := by
  have hlength : (systemResolve answers).length = min (maxDnsAnswers + 1) answers.length := by
    simp [systemResolve]
  have hle : answers.length ≤ maxDnsAnswers := by omega
  rw [systemResolve, List.take_of_length_le (by omega)]
  exact ⟨hle, rfl⟩

theorem candidate_of_mem_answers {target : PublicTarget} {env : ConnectEnv}
    {answers : ValidatedAnswers} (h : (answersFor target env).result = .ok answers)
    {ip : GloballyRoutableIp} (hip : ip ∈ answers.candidates) : Candidate target env ip.address := by
  unfold answersFor at h
  split at h
  · rename_i address hhost
    simp only [ValidatedAnswers.fromLiteral, result_pure] at h
    split at h
    · rename_i ip' hnew
      obtain rfl := Except.ok.inj h
      obtain rfl := List.mem_singleton.mp hip
      exact .literal (by rw [GloballyRoutableIp.new_eq_some hnew]; exact hhost)
    · cases h
  · rename_i name hhost
    simp only [result_bind] at h
    split at h
    · rename_i socketAddrs hresolved
      obtain ⟨hlength, hvalid⟩ := fromDns_eq_ok h
      obtain ⟨hle, hall⟩ := systemResolve_of_length hlength
      rw [hall] at hvalid
      refine .answer hhost hresolved hle ?_ ?_
      · obtain ⟨resolved, hmem, hok⟩ := exists_of_mapM_eq_ok hvalid hip
        obtain ⟨answer, hanswer, rfl⟩ := List.mem_map.mp hmem
        exact ⟨answer, hanswer, (ValidatedAnswers.validate_eq_ok hok).2.symm⟩
      · intro answer hmem
        obtain ⟨ip', -, hok⟩ := exists_ok_of_mapM_eq_ok hvalid (List.mem_map_of_mem hmem)
        obtain ⟨hscope, haddress⟩ := ValidatedAnswers.validate_eq_ok hok
        exact ⟨hscope, haddress ▸ ip'.routable⟩
    · cases h
    · cases h
    · cases h

/-- What opening a connection does: it resolves the name, and dials what the gate lets through. -/
inductive Opens (target : PublicTarget) (env : ConnectEnv) : Event → Prop
  | resolve : Opens target env (.resolve target.host.display target.port)
  | dial {address : IpAddr} {port : Port} (gate : DialGate target env address port) :
    Opens target env (.dial address port)

theorem events_answersFor {target : PublicTarget} {env : ConnectEnv} {e : Event}
    (h : e ∈ (answersFor target env).events) : e = .resolve target.host.display target.port := by
  unfold answersFor at h
  split at h
  · cases h
  · simp only [events_bind, events_emit, List.mem_append, List.mem_singleton] at h
    rcases h with h | h
    · exact h
    · split at h <;> cases h

/-- Every candidate that is reached is dialled, and no other address. -/
theorem events_dialEach {port : Port} {dials : ℕ → Awaited ℕ} {index : ℕ}
    {candidates : List GloballyRoutableIp} {e : Event}
    (h : e ∈ (dialEach port dials index candidates).events) :
    ∃ ip ∈ candidates, e = .dial ip.address port := by
  induction candidates generalizing index with
  | nil => cases h
  | cons ip candidates ih =>
    rw [dialEach, events_bind, events_emit, List.mem_append, List.mem_singleton] at h
    rcases h with rfl | h
    · exact ⟨ip, List.mem_cons_self, rfl⟩
    · split at h
      · cases h
      · obtain ⟨ip', hmem, he⟩ := ih h
        exact ⟨ip', List.mem_cons_of_mem _ hmem, he⟩
      · cases h
      · cases h

/-- A stream that is opened was dialled. -/
theorem dialled_of_dialEach {port : Port} {dials : ℕ → Awaited ℕ} {index : ℕ}
    {candidates : List GloballyRoutableIp} {stream : PublicStream}
    (h : (dialEach port dials index candidates).result = .ok stream) :
    Event.dial stream.address stream.port ∈ (dialEach port dials index candidates).events := by
  induction candidates generalizing index with
  | nil => cases h
  | cons ip candidates ih =>
    rw [dialEach, result_bind] at h
    rw [dialEach, events_bind, events_emit, List.mem_append, List.mem_singleton]
    split at h
    · obtain rfl := Except.ok.inj h
      exact .inl rfl
    · exact .inr (ih h)
    · cases h
    · cases h

theorem opens_of_mem_openWithBudget {target : PublicTarget} {env : ConnectEnv} {e : Event}
    (h : e ∈ (openWithBudget target env).events) : Opens target env e := by
  unfold openWithBudget at h
  split at h
  · cases h
  · rename_i hscope
    rw [events_bind, List.mem_append] at h
    rcases h with h | h
    · obtain rfl := events_answersFor h
      exact .resolve
    · split at h
      · rename_i answers hanswers
        obtain ⟨ip, hip, rfl⟩ := events_dialEach h
        refine .dial ⟨?_, rfl, candidate_of_mem_answers hanswers hip, ip.routable⟩
        simpa [PublicTarget.hasIpv6Scope] using hscope
      · cases h

theorem dialled_of_openWithBudget {target : PublicTarget} {env : ConnectEnv} {stream : PublicStream}
    (h : (openWithBudget target env).result = .ok stream) :
    Event.dial stream.address stream.port ∈ (openWithBudget target env).events := by
  unfold openWithBudget at h ⊢
  split at h
  · cases h
  · rename_i hscope
    rw [if_neg hscope, events_bind, List.mem_append]
    rw [result_bind] at h
    split at h
    · exact .inr (dialled_of_dialEach h)
    · cases h

/-- **Opening a connection dials globally routable candidates of the target only.** -/
theorem opens_of_mem_openTarget {target : PublicTarget} {env : ConnectEnv} {e : Event}
    (h : e ∈ (openTarget target env).events) : Opens target env e := by
  unfold openTarget at h
  split at h
  · cases h
  · exact opens_of_mem_openWithBudget h

theorem dialled_of_openTarget {target : PublicTarget} {env : ConnectEnv} {stream : PublicStream}
    (h : (openTarget target env).result = .ok stream) :
    Event.dial stream.address stream.port ∈ (openTarget target env).events := by
  unfold openTarget at h ⊢
  split at h
  · cases h
  · rename_i hpermit
    rw [if_neg hpermit]
    exact dialled_of_openWithBudget h

/-! ## What is checked out -/

section

variable {target : PublicTarget} {pool : PublicPool} {now : ℕ} {env : ConnectEnv}

/-- What a checkout does: it opens a connection, or it reuses one that the pool held under the key of
the target. -/
inductive ChecksOut (target : PublicTarget) (pool : PublicPool) (env : ConnectEnv) : Event → Prop
  | opens {e : Event} (h : Opens target env e) : ChecksOut target pool env e
  | reuse {origin : HttpOrigin PublicStream} (h : pool.Holds (.fromTarget target) origin) :
    ChecksOut target pool env (.reuse (.fromTarget target) origin.io)

theorem checksOut_of_mem {e : Event} (h : e ∈ (checkout target pool now env).events) :
    ChecksOut target pool env e := by
  unfold checkout at h
  simp only at h
  split at h
  · rename_i origin pool' htake
    rw [events_bind, events_emit, events_pure, List.append_nil, List.mem_singleton] at h
    obtain rfl := h
    exact .reuse (IdlePool.held_of_takeIfReusable (congrArg Prod.fst htake))
  · rw [events_bind, events_pure, List.append_nil] at h
    exact .opens (opens_of_mem_openTarget h)

/-- What is checked out was in the pool under the key of the target, or has been dialled. -/
theorem source_of_checkout {origin : HttpOrigin PublicStream}
    (h : (checkout target pool now env).result.1 = .ok origin) :
    pool.Holds (.fromTarget target) origin ∨
      Event.dial origin.io.address origin.io.port ∈ (checkout target pool now env).events := by
  unfold checkout at h ⊢
  simp only at h ⊢
  split at h
  · rename_i origin' pool' htake
    obtain rfl := Except.ok.inj h
    exact .inl (IdlePool.held_of_takeIfReusable (congrArg Prod.fst htake))
  · rename_i pool' htake
    rw [result_bind, result_pure] at h
    simp only [events_bind, events_pure, List.append_nil]
    cases hopen : (openTarget target env).result with
    | error error => rw [hopen] at h; cases h
    | ok stream =>
      rw [hopen] at h
      obtain rfl := Except.ok.inj h
      exact .inr (dialled_of_openTarget hopen)

theorem holds_of_checkout {key : OriginKey} {origin : HttpOrigin PublicStream}
    (h : (checkout target pool now env).result.2.Holds key origin) : pool.Holds key origin := by
  have hpool : (checkout target pool now env).result.2 =
      (pool.takeIfReusable (.fromTarget target) originReusable now).2 := by
    unfold checkout
    simp only
    split
    · rename_i htake
      rw [htake]
      rfl
    · rename_i htake
      rw [htake]
      rfl
  rw [hpool] at h
  exact h.of_takeIfReusable

end

end Vhrn.Proxy
