import Vhrn.Proxy.Diagnostics

/-!
# Authorization

Every request passes here before anything is dialled: a public target by the public policy, a local
target by the local one, both read from their files for that request. The policy files, the denial log
and the outcome of its appends make up the `RequestContext` of one request.
-/

namespace Vhrn.Proxy

/-! ## The context of a request -/

/-- The policy files, each with what a read of it finds at the time of the request. -/
structure Config where
  allowlists : List PolicyFile
  modeFile : PolicyFile
  localPaths : Option (List.Vector PolicyFile 3)

/-- The places that record a denial. -/
inductive RecordSite
  | publicDenied
  | publicReported
  | localDenied
  | addressDenied
  deriving DecidableEq, Repr

structure RequestContext where
  config : Config
  audit : AuditService
  /-- Whether the append made at each place succeeds. -/
  appends : RecordSite → Bool

inductive ProxyFailure
  | badRequest
  | headersTooLarge
  | unsupportedVersion
  | notImplemented
  | publicDenied (host : Bytes)
  | localDenied (authority : Bytes)
  | httpsRequiresConnect
  | reportLogUnavailable
  | serviceUnavailable
  | badGateway
  | gatewayTimeout
  deriving DecidableEq

structure AuthorizedPublic where
  target : PublicTarget
  effectiveMode : Mode
  alreadyAudited : Bool
  deriving DecidableEq

inductive AuthorizedRoute
  | direct (target : DirectTarget)
  | asterisk
  | publicHttp (authorized : AuthorizedPublic)
  | localHttp (target : LocalTarget)
  | publicConnect (authorized : AuthorizedPublic)
  | localConnect (target : LocalTarget)
  deriving DecidableEq

/-! ## Authorization -/

open Traced

def record (context : RequestContext) (site : RecordSite) (destination : DenialDestination)
    (mode : Mode) : Traced Event AuditResult := do
  let result := context.audit.result (context.appends site)
  emit (.record destination mode result)
  return result

/-- A record whose failure is only reported. -/
def recordBestEffort (context : RequestContext) (site : RecordSite)
    (destination : DenialDestination) (mode : Mode) : Traced Event Unit := do
  if (← record context site destination mode) = .appendFailed then emit .report

def authorizePublic (target : PublicTarget) (connect : Bool) (context : RequestContext) :
    Traced Event (Except ProxyFailure AuthorizedRoute) := do
  let (decision, warning) :=
    decidePublic context.config.allowlists context.config.modeFile target.host
  if warning.isSome then emit .report
  if !decision.allowed then
    recordBestEffort context .publicDenied (.ofPublic target) decision.effectiveMode
    return .error (.publicDenied target.host.display)
  let alreadyAudited := decision.recordDenial
  let authorized : AuthorizedPublic :=
    { target, effectiveMode := decision.effectiveMode, alreadyAudited }
  let route : AuthorizedRoute :=
    if connect then .publicConnect authorized else .publicHttp authorized
  if alreadyAudited then
    match ← record context .publicReported (.ofPublic target) decision.effectiveMode with
    | .appendFailed =>
      emit .report
      return .error .reportLogUnavailable
    | .recorded | .disabled => return .ok route
  else return .ok route

/-- The local policy allows the authority. Without local routing it allows none. -/
def localAllowed (config : Config) (authority : LoopbackAuthority) : Bool :=
  match config.localPaths with
  | some paths => decideLocal paths authority
  | none => false

def authorizeLocal (target : LocalTarget) (connect : Bool) (context : RequestContext) :
    Traced Event (Except ProxyFailure AuthorizedRoute) := do
  if !localAllowed context.config target.canonicalAuthority then
    recordBestEffort context .localDenied (.ofLocal target) .enforce
    return .error (.localDenied target.canonicalAuthority.display)
  return .ok (if connect then .localConnect target else .localHttp target)

def authorize (target : Target) (context : RequestContext) :
    Traced Event (Except ProxyFailure AuthorizedRoute) :=
  match target with
  | .direct target => return .ok (.direct target)
  | .asterisk => return .ok .asterisk
  | .httpsAbsoluteRejected => return .error .httpsRequiresConnect
  | .malformed => return .error .badRequest
  | .publicHttp target => authorizePublic target false context
  | .publicConnect target => authorizePublic target true context
  | .localHttp target => authorizeLocal target false context
  | .localConnect target => authorizeLocal target true context

/-! ## Disjoint capabilities -/

/-- Two contexts with the same denial log, whose appends have the same outcomes. -/
def SameAudit (context context' : RequestContext) : Prop :=
  context.audit = context'.audit ∧ context.appends = context'.appends

/-- The local and the public capability of a request do not depend on each other. -/
structure Disjoint : Prop where
  /-- A target whose host is a spelling of the loopback host is refused, or local with the canonical
  authority. -/
  loopback : ∀ {method rawTarget authority host},
    targetAuthority method rawTarget = some authority →
      LoopbackSpelling (hostText authority) host →
      (classify method rawTarget = .malformed ∨
        classify method rawTarget = .httpsAbsoluteRejected) ∨
      ∃ t, (classify method rawTarget = .localHttp t ∨ classify method rawTarget = .localConnect t) ∧
        t.canonicalAuthority.host = host ∧
        SpellsPort authority (impliedPort method) t.canonicalAuthority.port
  /-- Every other host is refused or public. -/
  others : ∀ {method rawTarget authority}, targetAuthority method rawTarget = some authority →
    (∀ host, ¬ LoopbackSpelling (hostText authority) host) →
      (classify method rawTarget = .malformed ∨
        classify method rawTarget = .httpsAbsoluteRejected) ∨
      ∃ t, classify method rawTarget = .publicHttp t ∨ classify method rawTarget = .publicConnect t
  /-- A target without a host is neither. -/
  hostless : ∀ {method rawTarget}, targetAuthority method rawTarget = none →
    classify method rawTarget = .malformed ∨ classify method rawTarget = .asterisk ∨
      ∃ t, classify method rawTarget = .direct t
  /-- The decision on a local target depends on the local files alone. -/
  localDecision : ∀ {target t context context'}, target = .localHttp t ∨ target = .localConnect t →
    context.config.localPaths = context'.config.localPaths →
      (authorize target context).result = (authorize target context').result
  /-- The decision on a public target, the denial log apart, depends on the public files alone. -/
  publicDecision : ∀ {target t context context'},
    target = .publicHttp t ∨ target = .publicConnect t →
    context.config.allowlists = context'.config.allowlists →
    context.config.modeFile = context'.config.modeFile → SameAudit context context' →
      (authorize target context).result = (authorize target context').result

theorem authorizeLocal_allowed {target : LocalTarget} {connect : Bool} {context : RequestContext}
    (h : localAllowed context.config target.canonicalAuthority = true) :
    authorizeLocal target connect context =
      ⟨[], .ok (if connect then .localConnect target else .localHttp target)⟩ := by
  simp only [authorizeLocal, h]
  rfl

theorem authorizeLocal_denied {target : LocalTarget} {connect : Bool} {context : RequestContext}
    (h : localAllowed context.config target.canonicalAuthority = false) :
    authorizeLocal target connect context =
      ⟨(recordBestEffort context .localDenied (.ofLocal target) .enforce).events,
        .error (.localDenied target.canonicalAuthority.display)⟩ := by
  simp only [authorizeLocal, h]
  exact congrArg (Traced.mk · _) (List.append_nil _)

theorem authorizeLocal_congr {target : LocalTarget} {connect : Bool}
    {context context' : RequestContext}
    (h : context.config.localPaths = context'.config.localPaths) :
    (authorizeLocal target connect context).result =
      (authorizeLocal target connect context').result := by
  have hsame (authority : LoopbackAuthority) :
      localAllowed context.config authority = localAllowed context'.config authority := by
    rw [localAllowed, localAllowed, h]
  cases hallow : localAllowed context.config target.canonicalAuthority with
  | true =>
    rw [authorizeLocal_allowed hallow, authorizeLocal_allowed (hsame _ ▸ hallow)]
  | false =>
    rw [authorizeLocal_denied hallow, authorizeLocal_denied (hsame _ ▸ hallow)]

theorem authorizePublic_congr {target : PublicTarget} {connect : Bool}
    {context context' : RequestContext}
    (hallow : context.config.allowlists = context'.config.allowlists)
    (hmode : context.config.modeFile = context'.config.modeFile)
    (haudit : SameAudit context context') :
    authorizePublic target connect context = authorizePublic target connect context' := by
  unfold authorizePublic recordBestEffort record
  rw [hallow, hmode, haudit.1, haudit.2]

/-- **Public and local capabilities are disjoint.** -/
theorem capabilities_disjoint : Disjoint where
  loopback hauthority hspelled := by
    cases classify_routed hauthority with
    | refused h => exact .inl h
    | toLocal t h hspelled' hport => exact .inr ⟨t, h, hspelled'.unique hspelled, hport⟩
    | toPublic t h hnot => exact absurd hspelled (hnot _)
  others hauthority hnot := by
    cases classify_routed hauthority with
    | refused h => exact .inl h
    | toLocal t h hspelled hport => exact absurd hspelled (hnot _)
    | toPublic t h _ => exact .inr ⟨t, h⟩
  hostless := classify_without_authority
  localDecision htarget hpaths := by
    rcases htarget with rfl | rfl
    · exact authorizeLocal_congr hpaths
    · exact authorizeLocal_congr hpaths
  publicDecision htarget hallow hmode haudit := by
    rcases htarget with rfl | rfl
    · exact congrArg _ (authorizePublic_congr hallow hmode haudit)
    · exact congrArg _ (authorizePublic_congr hallow hmode haudit)

end Vhrn.Proxy
