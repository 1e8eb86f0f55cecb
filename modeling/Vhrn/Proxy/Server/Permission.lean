import Vhrn.Proxy.Server.Authorize

/-!
# What authorization permits

The public authorization in its three cases: a denial, a plain permission, and a permission that is
recorded as a would-be denial first. Whatever it ends with, it dials nothing.
-/

namespace Vhrn.Proxy

open Traced PolicyReader

/-! ## The cases of public authorization -/

section

variable {context : RequestContext} {target : PublicTarget} {connect : Bool}

/-- The decision on a public target by the files of the context. -/
def publicDecision (context : RequestContext) (target : PublicTarget) : PublicDecision :=
  decidePublicLive context.config.allowlists context.config.modeFile target.host

/-- The report of an invalid policy. -/
def warningEvents (decision : PublicDecision) : List Event :=
  if decision.invalidInput then [.report] else []

/-- What a decision lets through. -/
def authorizedPublic (target : PublicTarget) (decision : PublicDecision) : AuthorizedPublic :=
  { target, effectiveMode := decision.effectiveMode, alreadyAudited := decision.recordDenial }

/-- The route of a permitted target. -/
def publicRoute (target : PublicTarget) (connect : Bool) (decision : PublicDecision) :
    AuthorizedRoute :=
  if connect then .publicConnect (authorizedPublic target decision)
  else .publicHttp (authorizedPublic target decision)

theorem authorizePublic_denied (h : (publicDecision context target).allowed = false) :
    authorizePublic target connect context =
      ⟨warningEvents (publicDecision context target) ++
          (recordBestEffort context .publicDenied (.ofPublic target)
            (publicDecision context target).effectiveMode).events,
        .error (.publicDenied target.host.display)⟩ := by
  rw [publicDecision] at h ⊢
  unfold authorizePublic decidePublic
  generalize decidePublicLive _ _ _ = decision at h ⊢
  cases hi : decision.invalidInput <;> ext1 <;> simp [h, hi, warningEvents]

theorem authorizePublic_permitted (h : (publicDecision context target).allowed = true)
    (hr : (publicDecision context target).recordDenial = false) :
    authorizePublic target connect context =
      ⟨warningEvents (publicDecision context target),
        .ok (publicRoute target connect (publicDecision context target))⟩ := by
  rw [publicDecision] at h hr ⊢
  unfold authorizePublic decidePublic publicRoute authorizedPublic
  generalize decidePublicLive _ _ _ = decision at h hr ⊢
  cases hi : decision.invalidInput <;> ext1 <;> simp [h, hr, hi, warningEvents]

/-- The result of the record of a would-be denial. -/
def reportedResult (context : RequestContext) : AuditResult :=
  context.audit.result (context.appends .publicReported)

theorem authorizePublic_reported (h : (publicDecision context target).allowed = true)
    (hr : (publicDecision context target).recordDenial = true) :
    authorizePublic target connect context =
      ⟨warningEvents (publicDecision context target) ++
          .record (.ofPublic target) (publicDecision context target).effectiveMode
            (reportedResult context) ::
          (if reportedResult context = .appendFailed then [.report] else []),
        if reportedResult context = .appendFailed then .error .reportLogUnavailable
        else .ok (publicRoute target connect (publicDecision context target))⟩ := by
  rw [publicDecision] at h hr ⊢
  unfold authorizePublic decidePublic publicRoute authorizedPublic record reportedResult
  generalize decidePublicLive _ _ _ = decision at h hr ⊢
  cases hi : decision.invalidInput <;>
    cases ha : context.audit.result (context.appends .publicReported) <;> ext1 <;>
    simp [h, hr, hi, warningEvents]

end

/-! ## Effects of authorization -/

/-- An effect on a connection to an origin. -/
def Event.isEgress : Event → Bool
  | .resolve .. | .dial .. | .reuse .. => true
  | .report | .record .. => false

theorem isEgress_recordBestEffort {context : RequestContext} {site : RecordSite}
    {destination : DenialDestination} {mode : Mode} {e : Event}
    (h : e ∈ (recordBestEffort context site destination mode).events) : e.isEgress = false := by
  unfold recordBestEffort record at h
  simp only [events_bind, events_emit, events_pure, result_bind, result_pure, List.append_nil,
    List.mem_append, List.mem_singleton] at h
  rcases h with rfl | h
  · rfl
  · split at h
    · obtain rfl := List.mem_singleton.mp h
      rfl
    · cases h

theorem isEgress_warningEvents {decision : PublicDecision} {e : Event}
    (h : e ∈ warningEvents decision) : e.isEgress = false := by
  unfold warningEvents at h
  split at h
  · obtain rfl := List.mem_singleton.mp h
    rfl
  · cases h

theorem isEgress_authorizePublic {context : RequestContext} {target : PublicTarget} {connect : Bool}
    {e : Event} (h : e ∈ (authorizePublic target connect context).events) : e.isEgress = false := by
  cases hallow : (publicDecision context target).allowed with
  | false =>
    rw [authorizePublic_denied hallow, List.mem_append] at h
    exact h.elim isEgress_warningEvents isEgress_recordBestEffort
  | true =>
    cases hrecord : (publicDecision context target).recordDenial with
    | false =>
      rw [authorizePublic_permitted hallow hrecord] at h
      exact isEgress_warningEvents h
    | true =>
      rw [authorizePublic_reported hallow hrecord, List.mem_append, List.mem_cons] at h
      rcases h with h | rfl | h
      · exact isEgress_warningEvents h
      · rfl
      · obtain ⟨-, h⟩ := List.mem_ite_nil_right.mp h
        obtain rfl := List.mem_singleton.mp h
        rfl

theorem isEgress_authorizeLocal {context : RequestContext} {target : LocalTarget} {connect : Bool}
    {e : Event} (h : e ∈ (authorizeLocal target connect context).events) : e.isEgress = false := by
  cases hallow : localAllowed context.config target.canonicalAuthority with
  | false =>
    rw [authorizeLocal_denied hallow] at h
    exact isEgress_recordBestEffort h
  | true =>
    rw [authorizeLocal_allowed hallow] at h
    cases h

/-- **Authorization has no effect on connections to origins.** -/
theorem isEgress_authorize {target : Target} {context : RequestContext} {e : Event}
    (h : e ∈ (authorize target context).events) : e.isEgress = false := by
  cases target with
  | direct target => cases h
  | asterisk => cases h
  | httpsAbsoluteRejected => cases h
  | malformed => cases h
  | publicHttp target => exact isEgress_authorizePublic h
  | publicConnect target => exact isEgress_authorizePublic h
  | localHttp target => exact isEgress_authorizeLocal h
  | localConnect target => exact isEgress_authorizeLocal h

/-! ## What a permission means -/

/-- The public policy files of the context permit the target: a layer matches it, the mode is open, or
the mode is report and a would-be denial has been recorded among the events. -/
inductive Permitted (context : RequestContext) (target : PublicTarget) (events : List Event) : Prop
  | enforced (usable : Usable context.config.allowlists)
    (mode : context.config.modeFile.mode = some .enforce)
    (matched : LayersMatch context.config.allowlists target.host)
  | reported (usable : Usable context.config.allowlists)
    (mode : context.config.modeFile.mode = some .report)
    (audited : LayersMatch context.config.allowlists target.host ∨ ∃ result,
      (result = .recorded ∨ result = .disabled) ∧
        Event.record (.ofPublic target) .report result ∈ events)
  | opened (usable : Usable context.config.allowlists)
    (mode : context.config.modeFile.mode = some .open)

theorem Permitted.mono {context : RequestContext} {target : PublicTarget} {events events' : List Event}
    (h : Permitted context target events) (hsub : events ⊆ events') :
    Permitted context target events' := by
  cases h with
  | enforced usable mode matched => exact .enforced usable mode matched
  | reported usable mode audited =>
    refine .reported usable mode (audited.imp_right ?_)
    rintro ⟨result, hresult, hmem⟩
    exact ⟨result, hresult, hsub hmem⟩
  | opened usable mode => exact .opened usable mode

/-- A permission needs usable layers and a mode. -/
theorem usable_of_allowed {context : RequestContext} {target : PublicTarget}
    (h : (publicDecision context target).allowed = true) :
    Usable context.config.allowlists ∧ ∃ mode, context.config.modeFile.mode = some mode := by
  have hnot : ¬ (context.config.allowlists = [] ∨
      (∃ file ∈ context.config.allowlists, file.layer parseDomainLayer = none) ∨
      context.config.modeFile.mode = none) := by
    intro hbad
    rw [publicDecision, decidePublicLive_law.failsClosed target.host hbad] at h
    cases h
  rw [not_or, not_or] at hnot
  obtain ⟨hne, hlayers, hmode⟩ := hnot
  refine ⟨⟨hne, fun file hfile => ?_⟩, Option.ne_none_iff_exists'.mp hmode⟩
  exact Option.ne_none_iff_isSome.mp fun hnone => hlayers ⟨file, hfile, hnone⟩

/-- **A public route is given for the target that is asked for, and only when it is permitted.** -/
theorem permitted_of_authorizePublic {context : RequestContext} {target : PublicTarget}
    {connect : Bool} {route : AuthorizedRoute}
    (h : (authorizePublic target connect context).result = .ok route) :
    route = publicRoute target connect (publicDecision context target) ∧
      Permitted context target (authorizePublic target connect context).events := by
  cases hallow : (publicDecision context target).allowed with
  | false =>
    rw [authorizePublic_denied hallow] at h
    cases h
  | true =>
    obtain ⟨usable, mode, hmode⟩ := usable_of_allowed hallow
    cases hrecord : (publicDecision context target).recordDenial with
    | false =>
      rw [authorizePublic_permitted hallow hrecord] at h ⊢
      refine ⟨(Except.ok.inj h).symm, ?_⟩
      cases mode with
      | enforce =>
        have law := decidePublicLive_law.enforceMode target.host usable hmode
        exact .enforced usable hmode (law.1.mp hallow)
      | report =>
        have law := decidePublicLive_law.reportMode target.host usable hmode
        refine .reported usable hmode (.inl (by_contra fun hno => ?_))
        rw [publicDecision, law.2.1.mpr hno] at hrecord
        cases hrecord
      | «open» => exact .opened usable hmode
    | true =>
      rw [authorizePublic_reported hallow hrecord] at h ⊢
      have hresult : reportedResult context = .recorded ∨ reportedResult context = .disabled := by
        cases hr : reportedResult context with
        | recorded => exact .inl rfl
        | disabled => exact .inr rfl
        | appendFailed => rw [hr] at h; cases h
      have hroute : route = publicRoute target connect (publicDecision context target) := by
        rcases hresult with hr | hr <;> rw [hr] at h <;> exact (Except.ok.inj h).symm
      refine ⟨hroute, ?_⟩
      cases mode with
      | enforce =>
        have law := decidePublicLive_law.enforceMode target.host usable hmode
        exact .enforced usable hmode (law.1.mp hallow)
      | report =>
        have law := decidePublicLive_law.reportMode target.host usable hmode
        refine .reported usable hmode (.inr ⟨reportedResult context, hresult, ?_⟩)
        rw [publicDecision, law.2.2.1]
        exact List.mem_append_right _ List.mem_cons_self
      | «open» => exact .opened usable hmode

/-- The routes that authorization gives for a target, after the given effects. -/
inductive Authorized (context : RequestContext) (events : List Event) :
    Target → AuthorizedRoute → Prop
  | direct (target : DirectTarget) : Authorized context events (.direct target) (.direct target)
  | asterisk : Authorized context events .asterisk .asterisk
  | publicHttp {target : PublicTarget} (permitted : Permitted context target events) :
    Authorized context events (.publicHttp target)
      (.publicHttp (authorizedPublic target (publicDecision context target)))
  | publicConnect {target : PublicTarget} (permitted : Permitted context target events) :
    Authorized context events (.publicConnect target)
      (.publicConnect (authorizedPublic target (publicDecision context target)))
  | localHttp {target : LocalTarget}
    (allowed : localAllowed context.config target.canonicalAuthority = true) :
    Authorized context events (.localHttp target) (.localHttp target)
  | localConnect {target : LocalTarget}
    (allowed : localAllowed context.config target.canonicalAuthority = true) :
    Authorized context events (.localConnect target) (.localConnect target)

theorem allowed_of_authorizeLocal {context : RequestContext} {target : LocalTarget} {connect : Bool}
    {route : AuthorizedRoute} (h : (authorizeLocal target connect context).result = .ok route) :
    route = (if connect then .localConnect target else .localHttp target) ∧
      localAllowed context.config target.canonicalAuthority = true := by
  cases hallow : localAllowed context.config target.canonicalAuthority with
  | false =>
    rw [authorizeLocal_denied hallow] at h
    cases h
  | true =>
    rw [authorizeLocal_allowed hallow] at h
    exact ⟨(Except.ok.inj h).symm, rfl⟩

/-- **A route is given for the target that is asked for, and only when its policy permits it.** -/
theorem authorized_of_authorize {context : RequestContext} {target : Target}
    {route : AuthorizedRoute} (h : (authorize target context).result = .ok route) :
    Authorized context (authorize target context).events target route := by
  cases target with
  | direct target =>
    obtain rfl := Except.ok.inj h
    exact .direct target
  | asterisk =>
    obtain rfl := Except.ok.inj h
    exact .asterisk
  | httpsAbsoluteRejected => cases h
  | malformed => cases h
  | publicHttp target =>
    obtain ⟨rfl, hpermitted⟩ := permitted_of_authorizePublic h
    exact .publicHttp hpermitted
  | publicConnect target =>
    obtain ⟨rfl, hpermitted⟩ := permitted_of_authorizePublic h
    exact .publicConnect hpermitted
  | localHttp target =>
    obtain ⟨rfl, hallow⟩ := allowed_of_authorizeLocal h
    exact .localHttp hallow
  | localConnect target =>
    obtain ⟨rfl, hallow⟩ := allowed_of_authorizeLocal h
    exact .localConnect hallow

end Vhrn.Proxy
