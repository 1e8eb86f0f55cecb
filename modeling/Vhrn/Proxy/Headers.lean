import Vhrn.Proxy.Server.Http1.Head

/-!
# Header rules

The rules shared by both outbound paths and by downstream responses: hop-by-hop fields, fixed or
nominated by `Connection`, do not pass the proxy, and every message that does is marked with `Via`.
-/

namespace Vhrn.Proxy

variable [HttpCrate]

def fixedHopHeaders : List HeaderName :=
  [.ofStatic (ascii "keep-alive") (by decide), .ofStatic (ascii "proxy-connection") (by decide),
    .ofStatic (ascii "proxy-authenticate") (by decide),
    .ofStatic (ascii "proxy-authorization") (by decide), .ofStatic (ascii "te") (by decide),
    .ofStatic (ascii "trailer") (by decide), .transferEncoding, .upgrade]

/-- The field names nominated by every `Connection` value, `none` when one of them is not a name. -/
def connectionNominations (headers : HeaderMap) : Option (List HeaderName) :=
  ((headers.getAll .connection).flatMap fun value => (value.asBytes.splitOn 44).map trimOws).mapM
    fun name => if validToken name then HeaderName.fromBytes name else none

/-- The map without the given names. -/
def removeAll (headers : HeaderMap) (names : List HeaderName) : HeaderMap :=
  names.foldl HeaderMap.remove headers

/-- Removes every fixed and every nominated hop field. -/
def sanitizeHopByHop (headers : HeaderMap) : Option HeaderMap := do
  let nominated ← connectionNominations headers
  return removeAll (removeAll (headers.remove .connection) nominated) fixedHopHeaders

def viaValue : Version → HeaderValue
  | .http10 => .ofStatic (ascii "1.0 vhrn") (by decide)
  | .http11 => .ofStatic (ascii "1.1 vhrn") (by decide)

def appendVia (headers : HeaderMap) (received : Version) : HeaderMap :=
  headers.append .via (viaValue received)

/-! ## What remains -/

theorem getAll_removeAll (headers : HeaderMap) (names : List HeaderName) (k : HeaderName) :
    (removeAll headers names).getAll k = if k ∈ names then [] else headers.getAll k := by
  induction names generalizing headers with
  | nil => simp [removeAll]
  | cons name names ih =>
    rw [removeAll, List.foldl_cons, ← removeAll, ih, HeaderMap.getAll, HttpCrate.getAll_remove]
    by_cases hk : k = name
    · simp [hk]
    · simp [hk]

/-- The values of a name after the hop fields are removed. -/
theorem getAll_sanitizeHopByHop {headers sanitized : HeaderMap} {nominated : List HeaderName}
    (hn : connectionNominations headers = some nominated)
    (h : sanitizeHopByHop headers = some sanitized) (k : HeaderName) :
    sanitized.getAll k =
      if k = HeaderName.connection ∨ k ∈ nominated ∨ k ∈ fixedHopHeaders then [] else headers.getAll k := by
  rw [sanitizeHopByHop, hn] at h
  obtain rfl := Option.some.inj h
  rw [getAll_removeAll, getAll_removeAll, HeaderMap.getAll, HttpCrate.getAll_remove]
  by_cases hf : k ∈ fixedHopHeaders
  · simp [hf]
  · by_cases hnom : k ∈ nominated
    · simp [hnom]
    · simp [hf, hnom]

theorem getAll_appendVia (headers : HeaderMap) (received : Version) (k : HeaderName) :
    (appendVia headers received).getAll k =
      if k = HeaderName.via then headers.getAll k ++ [viaValue received] else headers.getAll k :=
  HttpCrate.getAll_append headers HeaderName.via (viaValue received) k

end Vhrn.Proxy
