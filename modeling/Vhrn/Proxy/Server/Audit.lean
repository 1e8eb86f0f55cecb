import Vhrn.Proxy.Server.Egress

/-!
# Auditing

How often the handling of one request records a denial. A request ends as a denial by the public or
the local policy, as a denial of its addresses, as a would-be denial of report mode, or otherwise
(`Ending`); it is recorded once in the first four cases and never in the last. What a record returns
decides nothing but whether a would-be denial may go on.
-/

namespace Vhrn.Proxy

open Traced

/-! ## Endings -/

inductive Ending
  | publicDenial
  | localDenial
  | addressDenial
  | wouldBeDenial
  | other
  deriving DecidableEq

/-- The number of records that go with an ending. -/
def Ending.records : Ending → ℕ
  | .other => 0
  | _ => 1

/-- The connection attempt has met a prohibited address. -/
def prohibited {α : Type} : Except PublicConnectError α → Bool
  | .error .policyDenied => true
  | _ => false

def publicEnding (context : RequestContext) (target : PublicTarget) (addressDenied : Bool) : Ending :=
  if !(publicDecision context target).allowed then .publicDenial
  else if (publicDecision context target).recordDenial then .wouldBeDenial
  else if addressDenied then .addressDenial
  else .other

def localEnding (context : RequestContext) (target : LocalTarget) : Ending :=
  if localAllowed context.config target.canonicalAuthority then .other else .localDenial

/-! ## Counting records -/

def records (events : List Event) : ℕ := events.countP Event.isRecord

theorem records_append (events events' : List Event) :
    records (events ++ events') = records events + records events' := List.countP_append

theorem records_eq_zero {events : List Event} (h : ∀ e ∈ events, e.isRecord = false) :
    records events = 0 := by
  rw [records, List.countP_eq_zero]
  intro e he
  rw [h e he]
  exact Bool.false_ne_true

section

variable {context : RequestContext}

theorem records_recordBestEffort (site : RecordSite) (destination : DenialDestination)
    (mode : Mode) : records (recordBestEffort context site destination mode).events = 1 := by
  unfold recordBestEffort record
  simp only [events_bind, result_bind, events_emit, events_pure, result_pure, List.append_nil]
  split <;> rfl

theorem records_warningEvents (decision : PublicDecision) :
    records (warningEvents decision) = 0 := by
  unfold warningEvents
  split <;> rfl

/-- Public authorization records what it denies and what it would deny. -/
theorem records_authorizePublic (target : PublicTarget) (connect : Bool) :
    records (authorizePublic target connect context).events =
      (publicEnding context target false).records := by
  unfold publicEnding
  cases hallow : (publicDecision context target).allowed with
  | false =>
    rw [authorizePublic_denied hallow, records_append, records_warningEvents,
      records_recordBestEffort]
    rfl
  | true =>
    cases hrecord : (publicDecision context target).recordDenial with
    | false =>
      rw [authorizePublic_permitted hallow hrecord, records_warningEvents]
      rfl
    | true =>
      rw [authorizePublic_reported hallow hrecord, records_append, records_warningEvents]
      split <;> rfl

theorem records_authorizeLocal (target : LocalTarget) (connect : Bool) :
    records (authorizeLocal target connect context).events =
      (localEnding context target).records := by
  unfold localEnding
  cases hallow : localAllowed context.config target.canonicalAuthority with
  | false =>
    rw [authorizeLocal_denied hallow, records_recordBestEffort]
    rfl
  | true =>
    rw [authorizeLocal_allowed hallow]
    rfl

/-- A failed connection is recorded when its address is prohibited and the request has not been. -/
theorem records_publicFailure (error : PublicConnectError) (authorized : AuthorizedPublic) :
    records (publicFailure error authorized context).events =
      if error = .policyDenied ∧ authorized.alreadyAudited = false then 1 else 0 := by
  cases error with
  | policyDenied =>
    cases ha : authorized.alreadyAudited with
    | false =>
      simp only [publicFailure, ha, Bool.not_false, if_true, events_bind, events_pure,
        List.append_nil]
      exact records_recordBestEffort _ _ _
    | true => simp [publicFailure, ha, records]
  | _ => rfl

/-- What follows a public authorization records a prohibited address that is not recorded yet. -/
theorem records_public_bind {α : Type} {k : Except ProxyFailure AuthorizedRoute → Traced Event α}
    {target : PublicTarget} {connect addressDenied : Bool}
    (herror : ∀ proxyFailure, records (k (.error proxyFailure)).events = 0)
    (hok : records (k (.ok (publicRoute target connect (publicDecision context target)))).events =
      if addressDenied = true ∧ (publicDecision context target).recordDenial = false then 1 else 0) :
    records (authorizePublic target connect context >>= k).events =
      (publicEnding context target addressDenied).records := by
  rw [events_bind, records_append, records_authorizePublic]
  unfold publicEnding
  cases hallow : (publicDecision context target).allowed with
  | false =>
    rw [authorizePublic_denied hallow, herror]
    rfl
  | true =>
    cases hrecord : (publicDecision context target).recordDenial with
    | false =>
      rw [authorizePublic_permitted hallow hrecord, hok, hrecord]
      cases addressDenied <;> rfl
    | true =>
      have hresult : (authorizePublic target connect context).result = _ :=
        congrArg Traced.result (authorizePublic_reported hallow hrecord)
      by_cases hr : reportedResult context = .appendFailed
      · rw [hresult.trans (if_pos hr), herror]
        rfl
      · rw [hresult.trans (if_neg hr), hok, hrecord]
        cases addressDenied <;> rfl

theorem records_local_bind {α : Type} {k : Except ProxyFailure AuthorizedRoute → Traced Event α}
    {target : LocalTarget} {connect : Bool}
    (herror : ∀ proxyFailure, records (k (.error proxyFailure)).events = 0)
    (hok : records (k (.ok (if connect then .localConnect target else .localHttp target))).events =
      0) :
    records (authorizeLocal target connect context >>= k).events =
      (localEnding context target).records := by
  rw [events_bind, records_append, records_authorizeLocal]
  cases hallow : localAllowed context.config target.canonicalAuthority with
  | false => rw [authorizeLocal_denied hallow, herror, Nat.add_zero]
  | true => rw [authorizeLocal_allowed hallow, hok, Nat.add_zero]

theorem records_openTarget (target : PublicTarget) (env : ConnectEnv) :
    records (openTarget target env).events = 0 := by
  refine records_eq_zero fun e he => ?_
  cases opens_of_mem_openTarget he <;> rfl

theorem records_checkout (target : PublicTarget) (pool : PublicPool) (now : ℕ) (env : ConnectEnv) :
    records (checkout target pool now env).events = 0 := by
  refine records_eq_zero fun e he => ?_
  cases checksOut_of_mem he with
  | opens h => cases h <;> rfl
  | reuse h => rfl

end

/-! ## Endings of requests -/

variable [HttpCrate] {σ β : Type}

/-- How a request other than `CONNECT` ends. -/
def httpEnding (head : RequestHead) (origins : Origins) (context : RequestContext)
    (env : RouteEnv σ β) : Ending :=
  match classify head.method head.rawTarget with
  | .publicHttp target => publicEnding context target
      (prohibited (checkout target origins.pool env.now env.connect).result.1)
  | .publicConnect target => publicEnding context target false
  | .localHttp target | .localConnect target => localEnding context target
  | .direct _ | .asterisk | .httpsAbsoluteRejected | .malformed => .other

def connectEnding (head : RequestHead) (context : RequestContext) (env : RouteEnv σ β) : Ending :=
  match classify head.method head.rawTarget with
  | .publicConnect target => publicEnding context target
      (prohibited (openTarget target env.connect).result)
  | .publicHttp target => publicEnding context target false
  | .localHttp target | .localConnect target => localEnding context target
  | .direct _ | .asterisk | .httpsAbsoluteRejected | .malformed => .other

/-- Neither a shutdown request nor the departure of the client. -/
structure RouteEnv.Undisturbed (env : RouteEnv σ β) : Prop where
  authorizeCut : env.authorizeCut = none
  peerClose : env.peerClose = none

section

variable {head : RequestHead} {connection : σ} {origins : Origins} {context : RequestContext}
  {env : RouteEnv σ β}

theorem events_forwardPublic (henv : env.Undisturbed) (target : PublicTarget) :
    (forwardPublic target head connection origins env).events =
      (checkout target origins.pool env.now env.connect).events := by
  unfold forwardPublic
  simp only [henv.peerClose, cut_none, events_bind, result_bind, events_pure, result_pure,
    List.append_nil]
  rcases (checkout target origins.pool env.now env.connect).result with ⟨error | origin, pool⟩ <;>
    exact List.append_nil _

variable (head connection origins) in
theorem result_forwardPublic (henv : env.Undisturbed) (target : PublicTarget) :
    (forwardPublic target head connection origins env).result.1 =
      match (checkout target origins.pool env.now env.connect).result.1 with
      | .error error => .error (.connect error)
      | .ok _ => (env.exchange head target.pathAndQuery target.authority connection).1.mapError
          .exchange := by
  unfold forwardPublic
  simp only [henv.peerClose, cut_none, result_bind, result_pure]
  rcases (checkout target origins.pool env.now env.connect).result with ⟨error | origin, pool⟩ <;>
    rfl

theorem records_dispatchHttp1_public (henv : env.Undisturbed) (authorized : AuthorizedPublic) :
    records (dispatchHttp1 head connection origins (.publicHttp authorized) context env).events =
      if prohibited (checkout authorized.target origins.pool env.now env.connect).result.1 = true ∧
        authorized.alreadyAudited = false then 1 else 0 := by
  have hresult := result_forwardPublic head connection origins henv authorized.target
  simp only [dispatchHttp1]
  rw [events_bind, records_append, events_forwardPublic henv, records_checkout, Nat.zero_add]
  generalize (forwardPublic authorized.target head connection origins env).result = forwarded
    at hresult ⊢
  obtain ⟨outcome, connection', origins'⟩ := forwarded
  cases hout : (checkout authorized.target origins.pool env.now env.connect).result.1 with
  | error error =>
    obtain rfl : outcome = .error (.connect error) := by rw [hout] at hresult; exact hresult
    refine (records_append _ _).trans ?_
    rw [records_publicFailure]
    cases error <;> simp [prohibited, records]
  | ok origin =>
    rw [hout] at hresult
    obtain rfl : outcome = _ := hresult
    cases (env.exchange head authorized.target.pathAndQuery authorized.target.authority
      connection).1 <;> simp [prohibited, records, Except.mapError]

theorem records_dispatchHttp1_local (target : LocalTarget) :
    records (dispatchHttp1 head connection origins (.localHttp target) context env).events = 0 := by
  simp only [dispatchHttp1]
  split
  · rfl
  · rcases forwardLocal target head connection env with
      ⟨(error | error | error) | value, connection'⟩ <;> rfl

theorem routeFor_undisturbed (henv : env.Undisturbed) :
    routeFor head context env = authorize (classify head.method head.rawTarget) context := by
  rw [routeFor, henv.authorizeCut, cut_none]

/-- **A request is recorded once when it ends as a denial, and never otherwise.** -/
theorem records_handleHttp1 (henv : env.Undisturbed) :
    records (handleHttp1 head connection origins context env).events =
      (httpEnding head origins context env).records := by
  unfold handleHttp1 httpEnding
  simp only
  rw [routeFor_undisturbed henv]
  cases classify head.method head.rawTarget with
  | publicHttp target =>
    exact records_public_bind (fun _ => rfl) (records_dispatchHttp1_public henv _)
  | publicConnect target =>
    exact records_public_bind (fun _ => rfl) (by simp [publicRoute, records])
  | localHttp target =>
    exact records_local_bind (fun _ => rfl) (records_dispatchHttp1_local target)
  | localConnect target => exact records_local_bind (fun _ => rfl) rfl
  | direct target => rfl
  | asterisk => rfl
  | httpsAbsoluteRejected => rfl
  | malformed => rfl

theorem records_connectHttp1 (henv : env.Undisturbed) :
    records (connectHttp1 head context env).events = (connectEnding head context env).records := by
  unfold connectHttp1 connectEnding
  rw [routeFor_undisturbed henv]
  cases classify head.method head.rawTarget with
  | publicConnect target =>
    refine records_public_bind (fun _ => rfl) ?_
    simp only [publicRoute, if_true, authorizedPublic]
    rw [events_bind, records_append, records_openTarget, Nat.zero_add]
    cases (openTarget target env.connect).result with
    | error error =>
      refine (records_append _ _).trans ?_
      rw [records_publicFailure]
      cases error <;> simp [prohibited, records]
    | ok stream => simp [prohibited, records]
  | publicHttp target => exact records_public_bind (fun _ => rfl) (by simp [publicRoute, records])
  | localConnect target =>
    refine records_local_bind (fun _ => rfl) ?_
    simp only [if_true]
    split
    · rfl
    · cases env.broker <;> rfl
  | localHttp target => exact records_local_bind (fun _ => rfl) rfl
  | direct target => rfl
  | asterisk => rfl
  | httpsAbsoluteRejected => rfl
  | malformed => rfl

end

/-! ## What the log decides -/

section

variable {head : RequestHead} {connection : σ} {origins : Origins} {context context' : RequestContext}
  {env : RouteEnv σ β}

/-- A would-be denial of report mode: allowed, and still a denial to record. -/
def wouldBeDenied (context : RequestContext) : Target → Bool
  | .publicHttp target | .publicConnect target =>
    (publicDecision context target).allowed && (publicDecision context target).recordDenial
  | _ => false

omit [HttpCrate] in
/-- The denial log decides nothing about a request that is not a would-be denial. -/
theorem authorize_stable (hconfig : context.config = context'.config) {target : Target}
    (hnot : wouldBeDenied context target = false) :
    (authorize target context).result = (authorize target context').result := by
  have hpublic (target : PublicTarget) (connect : Bool)
      (h : ((publicDecision context target).allowed &&
        (publicDecision context target).recordDenial) = false) :
      (authorizePublic target connect context).result =
        (authorizePublic target connect context').result := by
    have hsame : publicDecision context target = publicDecision context' target := by
      rw [publicDecision, publicDecision, hconfig]
    cases hallow : (publicDecision context target).allowed with
    | false => rw [authorizePublic_denied hallow, authorizePublic_denied (hsame ▸ hallow)]
    | true =>
      rw [hallow, Bool.true_and] at h
      rw [authorizePublic_permitted hallow h,
        authorizePublic_permitted (hsame ▸ hallow) (hsame ▸ h), hsame]
  cases target with
  | publicHttp target => exact hpublic target false hnot
  | publicConnect target => exact hpublic target true hnot
  | localHttp target => exact authorizeLocal_congr (congrArg Config.localPaths hconfig)
  | localConnect target => exact authorizeLocal_congr (congrArg Config.localPaths hconfig)
  | direct target => rfl
  | asterisk => rfl
  | httpsAbsoluteRejected => rfl
  | malformed => rfl

theorem routeFor_stable (hconfig : context.config = context'.config)
    (hnot : wouldBeDenied context (classify head.method head.rawTarget) = false) :
    (routeFor head context env).result = (routeFor head context' env).result := by
  unfold routeFor cut
  split
  · exact authorize_stable hconfig hnot
  · rfl

omit [HttpCrate] in
variable (context') in
theorem publicFailure_stable (error : PublicConnectError) (authorized : AuthorizedPublic) :
    (publicFailure error authorized context).result =
      (publicFailure error authorized context').result := by
  cases error with
  | policyDenied => cases h : authorized.alreadyAudited <;> simp [publicFailure, h]
  | _ => rfl

theorem dispatchHttp1_stable (hconfig : context.config = context'.config)
    (route : AuthorizedRoute) :
    (dispatchHttp1 head connection origins route context env).result =
      (dispatchHttp1 head connection origins route context' env).result := by
  cases route with
  | publicHttp authorized =>
    simp only [dispatchHttp1, result_bind]
    rcases (forwardPublic authorized.target head connection origins env).result with
      ⟨(error | error) | value, connection', origins'⟩
    · simp only [result_bind, result_pure, publicFailure_stable context']
    · rfl
    · rfl
  | localHttp target =>
    simp only [dispatchHttp1, hconfig]
  | direct target => rfl
  | asterisk => rfl
  | publicConnect authorized => rfl
  | localConnect target => rfl

/-- **What becomes of a request does not depend on the denial log, would-be denials apart.** -/
theorem handleHttp1_stable (hconfig : context.config = context'.config)
    (hnot : wouldBeDenied context (classify head.method head.rawTarget) = false) :
    (handleHttp1 head connection origins context env).result =
      (handleHttp1 head connection origins context' env).result := by
  unfold handleHttp1
  simp only [result_bind]
  rw [routeFor_stable hconfig hnot]
  rcases (routeFor head context' env).result with error | (target | - | authorized | target |
    authorized | target)
  · rfl
  · simp only [direct, hconfig]
  · rfl
  · exact dispatchHttp1_stable hconfig _
  · exact dispatchHttp1_stable hconfig _
  · rfl
  · rfl

theorem connectHttp1_stable (hconfig : context.config = context'.config)
    (hnot : wouldBeDenied context (classify head.method head.rawTarget) = false) :
    (connectHttp1 head context env).result = (connectHttp1 head context' env).result := by
  unfold connectHttp1
  simp only [result_bind]
  rw [routeFor_stable hconfig hnot, hconfig]
  rcases (routeFor head context' env).result with error | (target | - | authorized | target |
    authorized | target)
  · rfl
  · rfl
  · rfl
  · rfl
  · rfl
  · simp only [result_bind]
    cases (openTarget authorized.target env.connect).result with
    | error error => simp only [result_bind, publicFailure_stable context']
    | ok stream => rfl
  · rfl

/-! ## What the client sees of a denial -/

omit [HttpCrate] in
theorem publicFailure_policyDenied (authorized : AuthorizedPublic) :
    (publicFailure .policyDenied authorized context).result =
      .publicDenied authorized.target.host.display := by
  cases h : authorized.alreadyAudited <;> simp [publicFailure, h]

omit [HttpCrate] in
theorem eq_policyDenied_of_prohibited {α : Type} {result : Except PublicConnectError α}
    (h : prohibited result = true) : result = .error .policyDenied := by
  cases result with
  | error error => cases error <;> first | rfl | cases h
  | ok value => cases h

theorem response_dispatchHttp1_prohibited (henv : env.Undisturbed) {authorized : AuthorizedPublic}
    (h : (checkout authorized.target origins.pool env.now env.connect).result.1 =
      .error .policyDenied) :
    (dispatchHttp1 head connection origins (.publicHttp authorized) context env).result.1.response =
      failure (.publicDenied authorized.target.host.display) (head.method = Method.head) := by
  have hresult := result_forwardPublic head connection origins henv authorized.target
  rw [h] at hresult
  simp only [dispatchHttp1, result_bind]
  generalize (forwardPublic authorized.target head connection origins env).result = forwarded
    at hresult ⊢
  obtain ⟨outcome, connection', origins'⟩ := forwarded
  obtain rfl : outcome = .error (.connect .policyDenied) := hresult
  simp only [result_bind, result_pure, publicFailure_policyDenied, unreadOutcome]

omit [HttpCrate] in
variable (context) in
/-- The result of a public authorization for each ending. -/
inductive EndsPublic (target : PublicTarget) (connect addressDenied : Bool) : Ending → Prop
  | publicDenial (h : (authorizePublic target connect context).result =
      .error (.publicDenied target.host.display)) :
    EndsPublic target connect addressDenied .publicDenial
  | wouldBeDenial (h : wouldBeDenied context (.publicHttp target) = true) :
    EndsPublic target connect addressDenied .wouldBeDenial
  | permitted (h : (authorizePublic target connect context).result =
      .ok (publicRoute target connect (publicDecision context target))) :
    EndsPublic target connect addressDenied (if addressDenied then .addressDenial else .other)

omit [HttpCrate] in
variable (context) in
theorem endsPublic (target : PublicTarget) (connect addressDenied : Bool) :
    EndsPublic context target connect addressDenied
      (publicEnding context target addressDenied) := by
  unfold publicEnding
  cases hallow : (publicDecision context target).allowed with
  | false => exact .publicDenial (congrArg Traced.result (authorizePublic_denied hallow))
  | true =>
    cases hrecord : (publicDecision context target).recordDenial with
    | true => exact .wouldBeDenial (by simp [wouldBeDenied, hallow, hrecord])
    | false => exact .permitted (congrArg Traced.result (authorizePublic_permitted hallow hrecord))

omit [HttpCrate] in
theorem denied_of_localEnding {target : LocalTarget}
    (h : localEnding context target = .publicDenial ∨ localEnding context target = .localDenial ∨
      localEnding context target = .addressDenial) :
    localAllowed context.config target.canonicalAuthority = false := by
  unfold localEnding at h
  cases hallow : localAllowed context.config target.canonicalAuthority with
  | false => rfl
  | true => simp [hallow] at h

/-- **A denial is answered as such.** -/
theorem response_handleHttp1 (henv : env.Undisturbed)
    (h : httpEnding head origins context env = .publicDenial ∨
      httpEnding head origins context env = .localDenial ∨
      httpEnding head origins context env = .addressDenial) :
    ∃ proxyFailure : ProxyFailure, proxyFailure.isDenial = true ∧
      (handleHttp1 head connection origins context env).result.1.response =
        failure proxyFailure (head.method = Method.head) := by
  unfold handleHttp1 httpEnding at *
  simp only [result_bind]
  rw [routeFor_undisturbed henv]
  cases hc : classify head.method head.rawTarget with
  | publicHttp target =>
    rw [hc] at h
    simp only at h
    generalize hp : prohibited _ = addressDenied at h
    have hends := endsPublic context target false addressDenied
    generalize publicEnding context target addressDenied = ending at h hends
    cases hends with
    | publicDenial hresult =>
      simp only [authorize, hresult]
      exact ⟨.publicDenied target.host.display, rfl, rfl⟩
    | wouldBeDenial => simp at h
    | permitted hresult =>
      simp only [authorize, hresult]
      cases addressDenied with
      | true =>
        refine ⟨_, rfl, response_dispatchHttp1_prohibited henv ?_⟩
        exact eq_policyDenied_of_prohibited hp
      | false => simp at h
  | publicConnect target =>
    rw [hc] at h
    simp only at h
    have hends := endsPublic context target true false
    generalize publicEnding context target false = ending at h hends
    cases hends with
    | publicDenial hresult =>
      simp only [authorize, hresult]
      exact ⟨.publicDenied target.host.display, rfl, rfl⟩
    | wouldBeDenial => simp at h
    | permitted hresult => simp at h
  | localHttp target =>
    rw [hc] at h
    simp only [authorize, authorizeLocal_denied (denied_of_localEnding h)]
    exact ⟨.localDenied target.canonicalAuthority.display, rfl, rfl⟩
  | localConnect target =>
    rw [hc] at h
    simp only [authorize, authorizeLocal_denied (denied_of_localEnding h)]
    exact ⟨.localDenied target.canonicalAuthority.display, rfl, rfl⟩
  | direct target => rw [hc] at h; simp at h
  | asterisk => rw [hc] at h; simp at h
  | httpsAbsoluteRejected => rw [hc] at h; simp at h
  | malformed => rw [hc] at h; simp at h

theorem result_connectHttp1 (henv : env.Undisturbed)
    (h : connectEnding head context env = .publicDenial ∨
      connectEnding head context env = .localDenial ∨
      connectEnding head context env = .addressDenial) :
    ∃ proxyFailure : ProxyFailure, proxyFailure.isDenial = true ∧
      (connectHttp1 head context env).result = .error proxyFailure := by
  unfold connectHttp1 connectEnding at *
  simp only [result_bind]
  rw [routeFor_undisturbed henv]
  cases hc : classify head.method head.rawTarget with
  | publicConnect target =>
    rw [hc] at h
    simp only at h
    generalize hp : prohibited _ = addressDenied at h
    have hends := endsPublic context target true addressDenied
    generalize publicEnding context target addressDenied = ending at h hends
    cases hends with
    | publicDenial hresult =>
      simp only [authorize, hresult]
      exact ⟨.publicDenied target.host.display, rfl, rfl⟩
    | wouldBeDenial => simp at h
    | permitted hresult =>
      simp only [authorize, hresult, publicRoute, if_true]
      cases addressDenied with
      | true =>
        refine ⟨.publicDenied target.host.display, rfl, ?_⟩
        simp only [result_bind, authorizedPublic, eq_policyDenied_of_prohibited hp,
          publicFailure_policyDenied, result_pure]
      | false => simp at h
  | publicHttp target =>
    rw [hc] at h
    simp only at h
    have hends := endsPublic context target false false
    generalize publicEnding context target false = ending at h hends
    cases hends with
    | publicDenial hresult =>
      simp only [authorize, hresult]
      exact ⟨.publicDenied target.host.display, rfl, rfl⟩
    | wouldBeDenial => simp at h
    | permitted hresult => simp at h
  | localHttp target =>
    rw [hc] at h
    simp only [authorize, authorizeLocal_denied (denied_of_localEnding h)]
    exact ⟨.localDenied target.canonicalAuthority.display, rfl, rfl⟩
  | localConnect target =>
    rw [hc] at h
    simp only [authorize, authorizeLocal_denied (denied_of_localEnding h)]
    exact ⟨.localDenied target.canonicalAuthority.display, rfl, rfl⟩
  | direct target => rw [hc] at h; simp at h
  | asterisk => rw [hc] at h; simp at h
  | httpsAbsoluteRejected => rw [hc] at h; simp at h
  | malformed => rw [hc] at h; simp at h

end

/-! ## The law -/

/-- A host that report mode lets through although no layer matches it. -/
structure UnmatchedReport (context : RequestContext) (target : PublicTarget) : Prop where
  mode : context.config.modeFile.mode = some .report
  unmatched : ¬ LayersMatch context.config.allowlists target.host

/-- The would-be denial of the target has been recorded, or recording is disabled. -/
def RecordReturned (target : PublicTarget) (events : List Event) : Prop :=
  ∃ result, (result = .recorded ∨ result = .disabled) ∧
    Event.record (.ofPublic target) .report result ∈ events

omit [HttpCrate] in
theorem recordReturned_of_permitted {context : RequestContext} {target : PublicTarget}
    {events : List Event} (h : Permitted context target events)
    (hreport : UnmatchedReport context target) : RecordReturned target events := by
  cases h with
  | enforced _ mode _ =>
    rw [hreport.mode] at mode
    cases mode
  | reported _ _ audited => exact audited.resolve_left hreport.unmatched
  | opened _ mode =>
    rw [hreport.mode] at mode
    cases mode

/-- What holds of denial records while one request is handled. -/
structure AuditLaw (σ β : Type) : Prop where
  /-- A denial is recorded once, everything else never. -/
  httpRecords : ∀ {head} {connection : σ} {origins context} {env : RouteEnv σ β}, env.Undisturbed →
    records (handleHttp1 head connection origins context env).events =
      (httpEnding head origins context env).records
  connectRecords : ∀ {head context} {env : RouteEnv σ β}, env.Undisturbed →
    records (connectHttp1 head context env).events = (connectEnding head context env).records
  /-- A denial by a policy or of an address is answered as one. -/
  httpDenied : ∀ {head} {connection : σ} {origins context} {env : RouteEnv σ β}, env.Undisturbed →
    httpEnding head origins context env = .publicDenial ∨
      httpEnding head origins context env = .localDenial ∨
      httpEnding head origins context env = .addressDenial →
    ∃ proxyFailure : ProxyFailure, proxyFailure.isDenial = true ∧
      (handleHttp1 head connection origins context env).result.1.response =
        failure proxyFailure (head.method = Method.head)
  connectDenied : ∀ {head context} {env : RouteEnv σ β}, env.Undisturbed →
    connectEnding head context env = .publicDenial ∨ connectEnding head context env = .localDenial ∨
      connectEnding head context env = .addressDenial →
    ∃ proxyFailure : ProxyFailure, proxyFailure.isDenial = true ∧
      (connectHttp1 head context env).result = .error proxyFailure
  /-- What report mode lets through unmatched is dialled only after its record has returned. -/
  httpReported : ∀ {head} {connection : σ} {origins context} {env : RouteEnv σ β} {target before e
    after}, classify head.method head.rawTarget = .publicHttp target →
    UnmatchedReport context target →
    (handleHttp1 head connection origins context env).events = before ++ e :: after →
    e.isEgress = true → RecordReturned target before
  connectReported : ∀ {head context} {env : RouteEnv σ β} {target before e after},
    classify head.method head.rawTarget = .publicConnect target →
    UnmatchedReport context target →
    (connectHttp1 head context env).events = before ++ e :: after →
    e.isEgress = true → RecordReturned target before
  /-- The log, and whether appends to it succeed, decide nothing about any other request. -/
  httpStable : ∀ {head} {connection : σ} {origins context context'} {env : RouteEnv σ β},
    context.config = context'.config →
    wouldBeDenied context (classify head.method head.rawTarget) = false →
    (handleHttp1 head connection origins context env).result =
      (handleHttp1 head connection origins context' env).result
  connectStable : ∀ {head context context'} {env : RouteEnv σ β},
    context.config = context'.config →
    wouldBeDenied context (classify head.method head.rawTarget) = false →
    (connectHttp1 head context env).result = (connectHttp1 head context' env).result

/-- **Denials are audited exactly once, and auditing never opens the gate.** -/
theorem denials_audited_once (σ β : Type) : AuditLaw σ β where
  httpRecords := records_handleHttp1
  connectRecords := records_connectHttp1
  httpDenied := response_handleHttp1
  connectDenied := result_connectHttp1
  httpReported htarget hreport hevents he := by
    obtain ⟨target', htarget', permitted, -⟩ := checksOut_of_handleHttp1 hevents he
    obtain rfl := Target.publicHttp.inj (htarget.symm.trans htarget')
    exact recordReturned_of_permitted permitted hreport
  connectReported htarget hreport hevents he := by
    obtain ⟨target', htarget', permitted, -⟩ := opens_of_connectHttp1 hevents he
    obtain rfl := Target.publicConnect.inj (htarget.symm.trans htarget')
    exact recordReturned_of_permitted permitted hreport
  httpStable := handleHttp1_stable
  connectStable := connectHttp1_stable

end Vhrn.Proxy
