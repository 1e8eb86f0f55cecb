import Vhrn.Proxy.Server.Permission
import Vhrn.Proxy.Server.Router

/-!
# The egress gate

Every run of the proxy, as far as its public origin connections are concerned: requests are handled in
any order, connections go back to the pool or are dropped, and the pool is pruned and closed. In every
run, an address is dialled or a pooled connection reused only for a request whose public target the
policy files of that very request permit (`egress_gate`). The invariant of the runs is that a
connection is kept under the key of the target it was dialled for (`Sourced`).
-/

namespace Vhrn.Proxy

open Traced

variable [HttpCrate] {σ β : Type}

/-! ## Runs -/

inductive ProxyStep (σ β : Type) [HttpCrate]
  /-- A request other than `CONNECT`. -/
  | http (head : RequestHead) (connection : σ) (context : RequestContext) (env : RouteEnv σ β)
  | connect (head : RequestHead) (context : RequestContext) (env : RouteEnv σ β)
  /-- A connection whose response has ended goes back to the pool. -/
  | giveBack (key : OriginKey) (origin : HttpOrigin PublicStream) (now stored : ℕ)
  | drop (key : OriginKey) (stream : PublicStream)
  | prune (now : ℕ)
  | close

namespace Origins

def new : Origins := { pool := .new, leased := [] }

def step (origins : Origins) : ProxyStep σ β → Traced Event Origins
  | .http head connection context env => do
    let (_, _, origins) ← handleHttp1 head connection origins context env
    return origins
  | .connect head context env => do
    let _ ← (connectHttp1 head context env).cut env.peerClose (.error .serviceUnavailable)
    return origins
  | .giveBack key origin now stored =>
    if (key, origin.io) ∈ origins.leased then
      return { pool := origins.pool.putIfReusable key origin originReusable now stored
               leased := origins.leased.erase (key, origin.io) }
    else return origins
  | .drop key stream => return { origins with leased := origins.leased.erase (key, stream) }
  | .prune now => return { origins with pool := origins.pool.prune now }
  | .close => return { origins with pool := origins.pool.close }

/-- The connections after a run. -/
def after (steps : List (ProxyStep σ β)) : Origins :=
  steps.foldl (fun origins step => (origins.step step).result) new

end Origins

/-- What a step does after the steps before it. -/
def effects (earlier : List (ProxyStep σ β)) (step : ProxyStep σ β) : List Event :=
  ((Origins.after earlier).step step).events

/-! ## The gate -/

/-- The step handles a request for the public target, with the given policy files and connections. -/
inductive Asks : ProxyStep σ β → PublicTarget → RequestContext → ConnectEnv → Prop
  | http {head : RequestHead} {connection : σ} {context : RequestContext} {env : RouteEnv σ β}
    {target : PublicTarget} (h : classify head.method head.rawTarget = .publicHttp target) :
    Asks (.http head connection context env) target context env.connect
  | connect {head : RequestHead} {context : RequestContext} {env : RouteEnv σ β}
    {target : PublicTarget} (h : classify head.method head.rawTarget = .publicConnect target) :
    Asks (.connect head context env) target context env.connect

/-- The connection was dialled for an earlier request for a target with the key. -/
def DialledFor (earlier : List (ProxyStep σ β)) (key : OriginKey) (stream : PublicStream) : Prop :=
  ∃ past step rest target context env, earlier = past ++ step :: rest ∧
    Asks step target context env ∧ OriginKey.fromTarget target = key ∧
    Event.dial stream.address stream.port ∈ effects past step

/-- What holds when a step dials or reuses after the given effects of its own. -/
inductive Gated (earlier : List (ProxyStep σ β)) (step : ProxyStep σ β) (before : List Event) :
    Event → Prop
  | resolve {target : PublicTarget} {context : RequestContext} {env : ConnectEnv}
    (asks : Asks step target context env) (permitted : Permitted context target before) :
    Gated earlier step before (.resolve target.host.display target.port)
  | dial {target : PublicTarget} {context : RequestContext} {env : ConnectEnv} {address : IpAddr}
    {port : Port} (asks : Asks step target context env)
    (permitted : Permitted context target before) (gate : DialGate target env address port) :
    Gated earlier step before (.dial address port)
  | reuse {target : PublicTarget} {context : RequestContext} {env : ConnectEnv}
    {stream : PublicStream} (asks : Asks step target context env)
    (permitted : Permitted context target before)
    (dialled : DialledFor earlier (.fromTarget target) stream) :
    Gated earlier step before (.reuse (.fromTarget target) stream)

/-! ## What a request does -/

section

variable {head : RequestHead} {connection : σ} {origins : Origins} {context : RequestContext}
  {env : RouteEnv σ β} {e : Event}

theorem isEgress_routeFor (h : e ∈ (routeFor head context env).events) : e.isEgress = false :=
  isEgress_authorize (mem_events_cut h)

theorem authorized_of_routeFor {route : AuthorizedRoute}
    (h : (routeFor head context env).result = .ok route) :
    Authorized context (routeFor head context env).events (classify head.method head.rawTarget)
      route := by
  unfold routeFor cut at h ⊢
  split at h
  · exact authorized_of_authorize h
  · cases h

omit [HttpCrate] in
theorem isEgress_publicFailure {error : PublicConnectError} {authorized : AuthorizedPublic}
    (h : e ∈ (publicFailure error authorized context).events) : e.isEgress = false := by
  cases error with
  | policyDenied =>
    cases ha : authorized.alreadyAudited with
    | false =>
      simp only [publicFailure, ha, Bool.not_false, if_true, events_bind, events_pure,
        List.append_nil] at h
      exact isEgress_recordBestEffort h
    | true =>
      simp [publicFailure, ha] at h
  | _ =>
    simp only [publicFailure, events_bind, events_emit, events_pure, List.append_nil,
      List.mem_singleton] at h
    obtain rfl := h
    rfl

/-- Forwarding to a public origin checks out a connection for its target. -/
theorem checksOut_of_forwardPublic {target : PublicTarget}
    (h : e ∈ (forwardPublic target head connection origins env).events) :
    ChecksOut target origins.pool env.connect e := by
  unfold forwardPublic at h
  rw [events_bind, List.mem_append] at h
  rcases h with h | h
  · have hmem := mem_events_cut h
    rw [events_bind, events_pure, List.append_nil] at hmem
    exact checksOut_of_mem hmem
  · split at h <;> cases h

/-- What dispatching a route does to connections it does for a permitted public target. -/
theorem checksOut_of_dispatchHttp1 {route : AuthorizedRoute}
    (h : e ∈ (dispatchHttp1 head connection origins route context env).events)
    (he : e.isEgress = true) :
    ∃ authorized, route = .publicHttp authorized ∧
      ChecksOut authorized.target origins.pool env.connect e := by
  have hreport (h : e ∈ ([.report] : List Event)) : False := by
    obtain rfl := List.mem_singleton.mp h
    cases he
  cases route with
  | publicHttp authorized =>
    refine ⟨authorized, rfl, ?_⟩
    simp only [dispatchHttp1] at h
    rw [events_bind, List.mem_append] at h
    rcases h with h | h
    · exact checksOut_of_forwardPublic h
    · split at h
      · cases h
      · rw [events_bind, events_pure, List.append_nil] at h
        rw [isEgress_publicFailure h] at he
        cases he
      · cases h
  | localHttp target =>
    simp only [dispatchHttp1] at h
    split at h
    · cases h
    · split at h
      · cases h
      · exact (hreport h).elim
      · cases h
      · exact (hreport h).elim
  | direct target => cases h
  | asterisk => cases h
  | publicConnect authorized => cases h
  | localConnect target => cases h

/-- An effect of a `CONNECT` request on connections is one of opening its permitted target. -/
theorem opens_of_connectHttp1 {before after : List Event}
    (h : (connectHttp1 head context env).events = before ++ e :: after) (he : e.isEgress = true) :
    ∃ target, classify head.method head.rawTarget = .publicConnect target ∧
      Permitted context target before ∧ Opens target env.connect e := by
  have hnot (h : e.isEgress = false) : False := by rw [h] at he; cases he
  unfold connectHttp1 at h
  rw [events_bind] at h
  obtain ⟨hsub, hmem⟩ := append_eq_of_not_mem h fun hm => hnot (isEgress_routeFor hm)
  cases hroute : (routeFor head context env).result with
  | error error => rw [hroute] at hmem; cases hmem
  | ok route =>
    rw [hroute] at hmem
    have hauth := authorized_of_routeFor hroute
    generalize classify head.method head.rawTarget = target at hauth
    cases hauth with
    | @publicConnect target permitted =>
      refine ⟨target, rfl, permitted.mono hsub, ?_⟩
      simp only at hmem
      rw [events_bind, List.mem_append] at hmem
      rcases hmem with hmem | hmem
      · exact opens_of_mem_openTarget hmem
      · split at hmem
        · cases hmem
        · rw [events_bind, events_pure, List.append_nil] at hmem
          exact (hnot (isEgress_publicFailure hmem)).elim
    | localConnect =>
      simp only at hmem
      split at hmem
      · cases hmem
      · split at hmem
        · cases hmem
        · obtain rfl := List.mem_singleton.mp hmem
          cases he
    | direct => cases hmem
    | asterisk => cases hmem
    | publicHttp => cases hmem
    | localHttp => cases hmem

/-- An effect of a request on connections is one of checking out its permitted target. -/
theorem checksOut_of_handleHttp1 {before after : List Event}
    (h : (handleHttp1 head connection origins context env).events = before ++ e :: after)
    (he : e.isEgress = true) :
    ∃ target, classify head.method head.rawTarget = .publicHttp target ∧
      Permitted context target before ∧ ChecksOut target origins.pool env.connect e := by
  unfold handleHttp1 at h
  simp only at h
  rw [events_bind] at h
  obtain ⟨hsub, hmem⟩ := append_eq_of_not_mem h fun hm => by
    rw [isEgress_routeFor hm] at he
    cases he
  cases hroute : (routeFor head context env).result with
  | error error => rw [hroute] at hmem; cases hmem
  | ok route =>
    rw [hroute] at hmem
    have hauth := authorized_of_routeFor hroute
    generalize classify head.method head.rawTarget = target at hauth
    cases hauth with
    | @publicHttp target permitted =>
      obtain ⟨authorized, hroute, hchecks⟩ := checksOut_of_dispatchHttp1 hmem he
      obtain rfl := AuthorizedRoute.publicHttp.inj hroute
      exact ⟨target, rfl, permitted.mono hsub, hchecks⟩
    | localHttp =>
      obtain ⟨authorized, hroute, -⟩ := checksOut_of_dispatchHttp1 hmem he
      cases hroute
    | direct => cases hmem
    | asterisk => cases hmem
    | publicConnect => cases hmem
    | localConnect => cases hmem

end

/-! ## What becomes of the connections -/

/-- Nothing is put into the pool, and what is leased has been leased before or is new. -/
structure Advances (origins origins' : Origins) (new : OriginKey → PublicStream → Prop) : Prop where
  held : ∀ {key origin}, origins'.pool.Holds key origin → origins.pool.Holds key origin
  leased : ∀ {key stream}, (key, stream) ∈ origins'.leased →
    (key, stream) ∈ origins.leased ∨ new key stream

omit [HttpCrate] in
theorem Advances.refl (origins : Origins) (new : OriginKey → PublicStream → Prop) :
    Advances origins origins new := ⟨id, .inl⟩

/-- A stream that a request for the target leases: from the pool, or dialled. -/
def Leases (target : PublicTarget) (origins : Origins) (events : List Event) (key : OriginKey)
    (stream : PublicStream) : Prop :=
  key = .fromTarget target ∧ ((∃ origin, origins.pool.Holds key origin ∧ origin.io = stream) ∨
    Event.dial stream.address stream.port ∈ events)

section

variable {head : RequestHead} {connection : σ} {origins : Origins} {context : RequestContext}
  {env : RouteEnv σ β}

variable (head connection origins env) in
theorem advances_forwardPublic (target : PublicTarget) :
    Advances origins (forwardPublic target head connection origins env).result.2.2
      (Leases target origins (forwardPublic target head connection origins env).events) := by
  cases hpeer : env.peerClose with
  | some n =>
    simp only [forwardPublic, hpeer]
    exact .refl origins _
  | none =>
    cases hout : (checkout target origins.pool env.now env.connect).result with
    | mk origin pool =>
      have hheld {key origin} (h : pool.Holds key origin) : origins.pool.Holds key origin :=
        holds_of_checkout (by rw [hout]; exact h)
      cases origin with
      | error error =>
        simp only [forwardPublic, hpeer, cut_none, result_bind, result_pure, hout, Except.mapError]
        exact ⟨hheld, .inl⟩
      | ok origin =>
        simp only [forwardPublic, hpeer, cut_none, result_bind, result_pure, events_bind,
          events_pure, List.append_nil, hout, Except.mapError]
        refine ⟨hheld, fun h => ?_⟩
        rcases List.mem_cons.mp h with h | h
        · obtain ⟨rfl, rfl⟩ := Prod.mk.inj h
          have hsource := source_of_checkout (congrArg Prod.fst hout)
          exact .inr ⟨rfl, hsource.imp_left fun hheld => ⟨origin, hheld, rfl⟩⟩
        · exact .inl h

variable (head connection origins context env) in
theorem dispatchHttp1_public (authorized : AuthorizedPublic) :
    (dispatchHttp1 head connection origins (.publicHttp authorized) context env).result.2.2 =
        (forwardPublic authorized.target head connection origins env).result.2.2 ∧
      (forwardPublic authorized.target head connection origins env).events ⊆
        (dispatchHttp1 head connection origins (.publicHttp authorized) context env).events := by
  simp only [dispatchHttp1]
  refine ⟨?_, List.subset_append_left _ _⟩
  rw [result_bind]
  rcases (forwardPublic authorized.target head connection origins env).result with
    ⟨(error | error) | value, connection', origins'⟩ <;> rfl

theorem dispatchHttp1_local (target : LocalTarget) :
    (dispatchHttp1 head connection origins (.localHttp target) context env).result.2.2 =
      origins := by
  simp only [dispatchHttp1]
  split
  · rfl
  · rcases forwardLocal target head connection env with
      ⟨(error | error | error) | value, connection'⟩ <;> rfl

/-- A request takes a connection for its public target at most. -/
theorem advances_handleHttp1 :
    Advances origins (handleHttp1 head connection origins context env).result.2.2
      fun key stream => ∃ target, classify head.method head.rawTarget = .publicHttp target ∧
        Leases target origins (handleHttp1 head connection origins context env).events key
          stream := by
  unfold handleHttp1
  simp only
  rw [result_bind, events_bind]
  cases hroute : (routeFor head context env).result with
  | error error => exact .refl origins _
  | ok route =>
    have hauth := authorized_of_routeFor hroute
    generalize classify head.method head.rawTarget = target at hauth
    cases hauth with
    | @publicHttp target =>
      obtain ⟨horigins, hevents⟩ := dispatchHttp1_public head connection origins context env
        (authorizedPublic target (publicDecision context target))
      rw [horigins]
      have hforward := advances_forwardPublic head connection origins env target
      refine ⟨hforward.held, fun h => (hforward.leased h).imp_right ?_⟩
      rintro ⟨hkey, hsource⟩
      exact ⟨target, rfl, hkey, hsource.imp_right fun hdial =>
        List.mem_append_right _ (hevents hdial)⟩
    | @localHttp target =>
      rw [dispatchHttp1_local]
      exact .refl origins _
    | direct => exact .refl origins _
    | asterisk => exact .refl origins _
    | publicConnect => exact .refl origins _
    | localConnect => exact .refl origins _

end

/-! ## The invariant -/

section

variable {earlier : List (ProxyStep σ β)} {key : OriginKey} {stream : PublicStream}

/-- The key of every connection is that of a target it was dialled for. -/
structure Sourced (steps : List (ProxyStep σ β)) (origins : Origins) : Prop where
  held : ∀ {key origin}, origins.pool.Holds key origin → DialledFor steps key origin.io
  leased : ∀ {key stream}, (key, stream) ∈ origins.leased → DialledFor steps key stream

theorem DialledFor.append (h : DialledFor earlier key stream) (step : ProxyStep σ β) :
    DialledFor (earlier ++ [step]) key stream := by
  obtain ⟨past, step', rest, target, context, env, rfl, h⟩ := h
  exact ⟨past, step', rest ++ [step], target, context, env, by simp, h⟩

theorem Sourced.advance {origins origins' : Origins} {new : OriginKey → PublicStream → Prop}
    (h : Sourced earlier origins) (step : ProxyStep σ β) (hadv : Advances origins origins' new)
    (hnew : ∀ {key stream}, new key stream → DialledFor (earlier ++ [step]) key stream) :
    Sourced (earlier ++ [step]) origins' where
  held hh := (h.held (hadv.held hh)).append step
  leased hl := (hadv.leased hl).elim (fun hl => (h.leased hl).append step) hnew

/-- A step keeps the connections under the keys they were dialled for. -/
theorem sourced_step (h : Sourced earlier (Origins.after earlier)) (step : ProxyStep σ β) :
    Sourced (earlier ++ [step]) ((Origins.after earlier).step step).result := by
  cases step with
  | http head connection context env =>
    refine h.advance _ advances_handleHttp1 ?_
    rintro key stream ⟨target, htarget, rfl, hheld | hdial⟩
    · obtain ⟨origin, hheld, rfl⟩ := hheld
      exact (h.held hheld).append _
    · exact ⟨earlier, _, [], target, context, env.connect, rfl, .http htarget, rfl,
        List.mem_append_left _ hdial⟩
  | connect head context env => exact h.advance _ (.refl _ fun _ _ => False) False.elim
  | giveBack key origin now stored =>
    simp only [Origins.step]
    split
    · rename_i hlease
      refine ⟨fun hh => ?_, fun hl => (h.leased (List.mem_of_mem_erase hl)).append _⟩
      rcases hh.of_putIfReusable with hh | ⟨rfl, rfl⟩
      · exact (h.held hh).append _
      · exact (h.leased hlease).append _
    · exact h.advance _ (.refl _ fun _ _ => False) False.elim
  | drop key stream =>
    exact ⟨fun hh => (h.held hh).append _,
      fun hl => (h.leased (List.mem_of_mem_erase hl)).append _⟩
  | prune now => exact ⟨fun hh => (h.held hh.of_prune).append _, fun hl => (h.leased hl).append _⟩
  | close =>
    exact ⟨fun hh => absurd hh IdlePool.not_holds_close, fun hl => (h.leased hl).append _⟩

theorem Origins.after_append (earlier : List (ProxyStep σ β)) (step : ProxyStep σ β) :
    Origins.after (earlier ++ [step]) = ((Origins.after earlier).step step).result := by
  rw [after, List.foldl_append]
  rfl

/-- In every run, connections are kept under the keys they were dialled for. -/
theorem sourced_after (steps : List (ProxyStep σ β)) : Sourced steps (Origins.after steps) := by
  induction steps using List.reverseRecOn with
  | nil => exact ⟨fun hh => absurd hh IdlePool.not_holds_new, fun hl => absurd hl List.not_mem_nil⟩
  | append_singleton earlier step ih =>
    rw [Origins.after_append]
    exact sourced_step ih step

end

/-! ## The gate holds -/

/-- What holds of the connections to public origins in every run. -/
structure EgressGate (σ β : Type) : Prop where
  /-- Every resolution, dial and reuse is for a request for a public target that has been permitted. -/
  gated : ∀ (earlier : List (ProxyStep σ β)) (step : ProxyStep σ β) {before after : List Event}
    {e : Event}, effects earlier step = before ++ e :: after → e.isEgress = true →
      Gated earlier step before e
  /-- One unsafe answer, none, or too many, and nothing is dialled. -/
  refused : ∀ (earlier : List (ProxyStep σ β)) (step : ProxyStep σ β) {target : PublicTarget}
    {context : RequestContext} {env : ConnectEnv} {name : DomainName} {answers : List SocketAddr},
    Asks step target context env → target.host = .dns name → env.resolution = .done answers →
      (answers = [] ∨ maxDnsAnswers < answers.length ∨ ∃ answer ∈ answers,
        (ResolvedAddress.fromSocket answer).scopeId ≠ 0 ∨
          ¬ GloballyRoutable (ResolvedAddress.fromSocket answer).address) →
      ∀ address port, Event.dial address port ∉ effects earlier step

theorem gated_of_effects (earlier : List (ProxyStep σ β)) (step : ProxyStep σ β)
    {before after : List Event} {e : Event} (h : effects earlier step = before ++ e :: after)
    (he : e.isEgress = true) : Gated earlier step before e := by
  have hopens {target : PublicTarget} {context : RequestContext} {env : ConnectEnv}
      (asks : Asks step target context env) (permitted : Permitted context target before)
      (hopens : Opens target env e) : Gated earlier step before e := by
    cases hopens with
    | resolve => exact .resolve asks permitted
    | dial gate => exact .dial asks permitted gate
  have hquiet (h : effects earlier step = []) : Gated earlier step before e := by simp_all
  cases step with
  | http head connection context env =>
    obtain ⟨target, htarget, permitted, hchecks⟩ :=
      checksOut_of_handleHttp1 ((List.append_nil _).symm.trans h) he
    have asks : Asks (.http head connection context env) target context env.connect := .http htarget
    cases hchecks with
    | opens ho => exact hopens asks permitted ho
    | reuse hheld => exact .reuse asks permitted ((sourced_after earlier).held hheld)
  | connect head context env =>
    obtain ⟨after', hall⟩ := of_events_cut ((List.append_nil _).symm.trans h)
    obtain ⟨target, htarget, permitted, ho⟩ := opens_of_connectHttp1 hall he
    exact hopens (.connect htarget) permitted ho
  | giveBack key origin now stored =>
    refine hquiet ?_
    simp only [effects, Origins.step]
    split <;> rfl
  | drop key stream => exact hquiet rfl
  | prune now => exact hquiet rfl
  | close => exact hquiet rfl

theorem Asks.unique {step : ProxyStep σ β} {target target' : PublicTarget}
    {context context' : RequestContext} {env env' : ConnectEnv} (h : Asks step target context env)
    (h' : Asks step target' context' env') : target = target' ∧ env = env' := by
  cases h with
  | http ht =>
    cases h' with
    | http ht' => exact ⟨Target.publicHttp.inj (ht.symm.trans ht'), rfl⟩
  | connect ht =>
    cases h' with
    | connect ht' => exact ⟨Target.publicConnect.inj (ht.symm.trans ht'), rfl⟩

/-- **The egress gate holds in every run.** -/
theorem egress_gate (σ β : Type) : EgressGate σ β where
  gated := gated_of_effects
  refused earlier step {target context env name answers} asks hhost hresolved hbad address port := by
    intro hmem
    obtain ⟨before, after, hsplit⟩ := List.append_of_mem hmem
    cases gated_of_effects earlier step hsplit rfl with
    | dial asks' permitted gate =>
      obtain ⟨rfl, rfl⟩ := asks.unique asks'
      cases gate.candidate with
      | literal h =>
        rw [hhost] at h
        cases h
      | answer _ hresolved' hbounded hmem hsafe =>
        obtain rfl := Awaited.done.inj (hresolved.symm.trans hresolved')
        rcases hbad with rfl | hmany | ⟨answer, hanswer, hunsafe⟩
        · obtain ⟨answer, hanswer, -⟩ := hmem
          cases hanswer
        · omega
        · obtain ⟨hscope, hroutable⟩ := hsafe answer hanswer
          exact hunsafe.elim (· hscope) (· hroutable)

end Vhrn.Proxy
