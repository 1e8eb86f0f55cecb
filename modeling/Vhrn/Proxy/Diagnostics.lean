import Vhrn.Foundations.Traced
import Vhrn.Proxy.Domain.LivePolicy

/-!
# What handling a request does outside

The effects of handling one request, as events: lines for the operator, denial records, name
resolutions, dials, and the reuse of a pooled stream. A denial record names its destination, the host
of a public target or the canonical authority of a local one, and appends one line to the denial log
when there is one; whether an append succeeds is the environment's.
-/

namespace Vhrn.Proxy

/-! ## Denial records -/

structure DenialDestination where
  value : Bytes
  deriving DecidableEq

namespace DenialDestination

def ofPublic (target : PublicTarget) : DenialDestination := ⟨target.host.display⟩

def ofLocal (target : LocalTarget) : DenialDestination := ⟨target.canonicalAuthority.display⟩

end DenialDestination

inductive AuditResult
  | recorded
  | disabled
  | appendFailed
  deriving DecidableEq, Repr

/-- The denial log, if one is configured. -/
structure AuditService where
  path : Option Bytes

/-- The result of a record whose append, if it is made, succeeds or not. -/
def AuditService.result (audit : AuditService) (appends : Bool) : AuditResult :=
  match audit.path with
  | none => .disabled
  | some _ => if appends then .recorded else .appendFailed

/-! ## Events -/

/-- Stable identity for a public origin connection pool. -/
structure OriginKey where
  host : PublicHost
  ipv6Scope : Option Bytes
  port : Port
  deriving DecidableEq

def OriginKey.fromTarget (target : PublicTarget) : OriginKey :=
  { host := target.host, ipv6Scope := target.ipv6Scope, port := target.port }

/-- An open numeric connection, by the address that was dialled and a number of its own. -/
structure PublicStream where
  address : IpAddr
  port : Port
  id : ℕ
  deriving DecidableEq

inductive Event
  | report
  | record (destination : DenialDestination) (mode : Mode) (result : AuditResult)
  | resolve (host : Bytes) (port : Port)
  | dial (address : IpAddr) (port : Port)
  | reuse (key : OriginKey) (stream : PublicStream)
  deriving DecidableEq

/-- A denial-record call. -/
def Event.isRecord : Event → Bool
  | .record .. => true
  | _ => false

end Vhrn.Proxy
