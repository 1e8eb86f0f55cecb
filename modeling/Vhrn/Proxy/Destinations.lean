import Vhrn.Proxy.Diagnostics
import Vhrn.Proxy.Domain.Canonical

/-!
# Where a target goes

An accepted target goes to a public or to a local destination. What the proxy does with a destination
depends on the host and the port that the target denotes and on no spelling of them: the key of its
pooled streams, the destination of its denial records and the decision of every policy are the same
for every two targets that denote the same. Its canonical authority is read back as itself
(`classify_canonical`).
-/

namespace Vhrn.Proxy

/-! ## Destinations -/

/-- Where an accepted target goes. -/
inductive Destination
  | toPublic (target : PublicTarget)
  | toLocal (target : LocalTarget)
  deriving DecidableEq

def Target.destination : Target → Option Destination
  | .publicHttp target | .publicConnect target => some (.toPublic target)
  | .localHttp target | .localConnect target => some (.toLocal target)
  | _ => none

namespace Destination

/-- The destination of a parsed authority. -/
def ofParsed (parsed : ParsedAuthority) (pathAndQuery : Bytes) : Destination :=
  match parsed.host with
  | .localHost host =>
    .toLocal
      { canonicalAuthority := { host, port := parsed.port }
        explicitPort := parsed.explicitPort
        pathAndQuery }
  | .publicHost host =>
    .toPublic
      { authority := canonicalPublicAuthority host parsed.ipv6Scope parsed.port parsed.explicitPort
        host
        ipv6Scope := parsed.ipv6Scope
        port := parsed.port
        explicitPort := parsed.explicitPort
        pathAndQuery }

def canonicalAuthority : Destination → Bytes
  | .toPublic target => target.authority
  | .toLocal target => target.canonicalAuthority.display

def pathAndQuery : Destination → Bytes
  | .toPublic target => target.pathAndQuery
  | .toLocal target => target.pathAndQuery

/-- The key of the pooled streams; a local destination has none. -/
def originKey : Destination → Option OriginKey
  | .toPublic target => some (.fromTarget target)
  | .toLocal _ => none

def denial : Destination → DenialDestination
  | .toPublic target => .ofPublic target
  | .toLocal target => .ofLocal target

/-- The decision under the policy that the files hold. -/
def decision (paths : List PolicyFile) (modePath : PolicyFile) (locals : List.Vector PolicyFile 3) :
    Destination → PublicDecision ⊕ LocalDecision
  | .toPublic target => .inl (PolicyReader.decidePublicLive paths modePath target.host)
  | .toLocal target => .inr (PolicyReader.decideLocalLive locals target.canonicalAuthority)

/-- The destination of an absolute target, its port written when it is local. -/
def asHttp : Destination → Target
  | .toPublic target => .publicHttp target
  | .toLocal target => .localHttp { target with explicitPort := true }

end Destination

/-! ## The destination of a classified target -/

theorem classifyAuthority_destination {value : Bytes} {scheme : Option AbsoluteScheme}
    {kind : RequestKind} {pathAndQuery : Bytes} (hscheme : scheme ≠ some .https) :
    (classifyAuthority value scheme kind pathAndQuery).destination =
      (parseAuthority value (scheme.map AbsoluteScheme.defaultPort) (kind == .connect)).map
        (Destination.ofParsed · pathAndQuery) := by
  unfold classifyAuthority
  cases parseAuthority value (scheme.map AbsoluteScheme.defaultPort) (kind == .connect) with
  | none => rfl
  | some parsed =>
    obtain ⟨host, scope, port, explicitPort⟩ := parsed
    simp only [if_neg hscheme, Option.map_some]
    cases host with
    | localHost host => cases kind <;> rfl
    | publicHost host => cases kind <;> rfl

theorem classifyAuthority_https_destination (value : Bytes) (kind : RequestKind)
    (pathAndQuery : Bytes) :
    (classifyAuthority value (some .https) kind pathAndQuery).destination = none := by
  rcases classifyAuthority_https value kind pathAndQuery with h | h
  · rw [h]
    rfl
  · rw [h]
    rfl

/-- A destination `d` is that of the parsed authority. -/
def ParsedFrom (authority : Bytes) (defaultPort : Option Port) (portRequired : Bool)
    (d : Destination) : Prop :=
  ∃ parsed, parseAuthority authority defaultPort portRequired = some parsed ∧
    d = .ofParsed parsed d.pathAndQuery ∧
    (d.pathAndQuery = [] ∨ validAbsolutePathAndQuery d.pathAndQuery = true)

theorem Destination.pathAndQuery_ofParsed (parsed : ParsedAuthority) (path : Bytes) :
    (ofParsed parsed path).pathAndQuery = path := by
  obtain ⟨host, scope, port, explicitPort⟩ := parsed
  cases host with
  | localHost host => rfl
  | publicHost host => rfl

theorem parsedFrom_classifyAuthority {value : Bytes} {scheme : Option AbsoluteScheme}
    {kind : RequestKind} {path : Bytes} {d : Destination} (hscheme : scheme ≠ some .https)
    (hpath : path = [] ∨ validAbsolutePathAndQuery path = true)
    (h : (classifyAuthority value scheme kind path).destination = some d) :
    ParsedFrom value (scheme.map AbsoluteScheme.defaultPort) (kind == .connect) d := by
  rw [classifyAuthority_destination hscheme] at h
  obtain ⟨parsed, hparsed, rfl⟩ := Option.map_eq_some_iff.mp h
  refine ⟨parsed, hparsed, ?_, ?_⟩
  · rw [Destination.pathAndQuery_ofParsed]
  · rw [Destination.pathAndQuery_ofParsed]
    exact hpath

theorem parsedFrom_classifyConnect {rawTarget : Bytes} {d : Destination}
    (h : (classifyConnect rawTarget).destination = some d) : ParsedFrom rawTarget none true d := by
  unfold classifyConnect at h
  split at h
  · cases h
  · rename_i text htext
    rw [fromUtf8_eq_some htext] at h
    split at h
    · cases h
    · exact parsedFrom_classifyAuthority (by decide) (.inl rfl) h

theorem parsedFrom_classifyAbsolute {rawTarget : Bytes} {d : Destination}
    (h : (classifyAbsolute rawTarget).destination = some d) :
    ∃ scheme authority path, splitAbsolute rawTarget = some (scheme, authority, path) ∧
      ParsedFrom authority (some AbsoluteScheme.http.defaultPort) false d := by
  unfold classifyAbsolute at h
  split at h
  · cases h
  · split at h
    · cases h
    · rename_i scheme authority path hsplit
      refine ⟨scheme, authority, path, hsplit, ?_⟩
      split at h
      · cases h
      · rename_i text htext
        rw [fromUtf8_eq_some htext] at h
        split at h
        · cases h
        · rename_i hchecks
          cases scheme with
          | http =>
            refine @parsedFrom_classifyAuthority _ (some .http) .http _ _ (by decide) ?_ h
            by_cases hnil : path = []
            · exact .inl hnil
            · rw [Bool.or_eq_true, not_or, Bool.and_eq_true, not_and] at hchecks
              exact .inr (by simpa [hnil] using hchecks.2)
          | https =>
            rw [classifyAuthority_https_destination] at h
            cases h

/-- **A destination is that of the parsed authority of the target.** -/
theorem destination_parsed {method : Method} {rawTarget : Bytes} {d : Destination}
    (h : (classify method rawTarget).destination = some d) :
    ∃ authority, targetAuthority method rawTarget = some authority ∧
      ParsedFrom authority (impliedPort method) (decide (method = Method.connect)) d := by
  unfold classify at h
  unfold targetAuthority impliedPort
  by_cases hconnect : method = Method.connect
  · rw [if_pos hconnect] at h
    rw [if_pos hconnect, if_pos hconnect, decide_eq_true hconnect]
    exact ⟨rawTarget, rfl, parsedFrom_classifyConnect h⟩
  · rw [if_neg hconnect] at h
    rw [if_neg hconnect, if_neg hconnect, decide_eq_false hconnect]
    split at h
    · cases h
    · split at h
      · split at h
        · cases h
        · cases h
      · obtain ⟨scheme, authority, path, hsplit, hparsed⟩ := parsedFrom_classifyAbsolute h
        exact ⟨authority, congrArg (Option.map _) hsplit, hparsed⟩

/-! ## What a target denotes -/

/-- The host and the port that a raw target denotes, by its text alone. -/
def TargetDenotes (method : Method) (rawTarget : Bytes) (host : HostMeaning) (port : Port) : Prop :=
  ∃ authority, targetAuthority method rawTarget = some authority ∧
    Denotes (hostText authority) host ∧ SpellsPort authority (impliedPort method) port

theorem SpellsPort.unique {authority : Bytes} {defaultPort : Option Port} {port port' : Port}
    (h : SpellsPort authority defaultPort port) (h' : SpellsPort authority defaultPort port') :
    port = port' := by
  rcases h with ⟨text, htext, hport⟩ | ⟨hnone, hdefault⟩
  · rcases h' with ⟨text', htext', hport'⟩ | ⟨hnone', -⟩
    · obtain rfl := Option.some.inj (htext.symm.trans htext')
      exact Except.ok.inj (hport.symm.trans hport')
    · rw [htext] at hnone'
      cases hnone'
  · rcases h' with ⟨text', htext', -⟩ | ⟨-, hdefault'⟩
    · rw [hnone] at htext'
      cases htext'
    · exact Option.some.inj (hdefault.symm.trans hdefault')

theorem TargetDenotes.unique {method : Method} {rawTarget : Bytes} {host host' : HostMeaning}
    {port port' : Port} (h : TargetDenotes method rawTarget host port)
    (h' : TargetDenotes method rawTarget host' port') : host = host' ∧ port = port' := by
  obtain ⟨authority, hauthority, hhost, hport⟩ := h
  obtain ⟨authority', hauthority', hhost', hport'⟩ := h'
  obtain rfl := Option.some.inj (hauthority.symm.trans hauthority')
  exact ⟨hhost.unique hhost', hport.unique hport'⟩

/-- The parsed authority of a destination is canonical, and its host and port are what the target
denotes. -/
theorem destination_denotes {method : Method} {rawTarget : Bytes} {d : Destination}
    (h : (classify method rawTarget).destination = some d) :
    ∃ host scope port explicitPort,
      d = .ofParsed ⟨host, scope, port, explicitPort⟩ d.pathAndQuery ∧ host.Canonical scope ∧
      ReadsPort (some AbsoluteScheme.http.defaultPort) false port explicitPort ∧
      (d.pathAndQuery = [] ∨ validAbsolutePathAndQuery d.pathAndQuery = true) ∧
      TargetDenotes method rawTarget (host.meaning scope) port := by
  obtain ⟨authority, hauthority, parsed, hparsed, hd, hpath⟩ := destination_parsed h
  obtain ⟨hcanonical, hdenotes⟩ := parseAuthority_denotes hparsed
  refine ⟨parsed.host, parsed.ipv6Scope, parsed.port, parsed.explicitPort, hd, hcanonical, ?_,
    hpath, authority, hauthority, hdenotes, parseAuthority_port hparsed⟩
  rcases parseAuthority_readsPort hparsed with hexplicit | ⟨hexplicit, hrequired, hdefault⟩
  · exact .inl hexplicit
  · rw [impliedPort, if_neg (of_decide_eq_false hrequired)] at hdefault
    exact .inr ⟨hexplicit, rfl, hdefault⟩

/-! ## The canonical authority is read back -/

namespace Destination

/-- Whether the port is written in the canonical authority. -/
def writesPort (host : ParsedHost) (explicitPort : Bool) : Bool :=
  match host with
  | .localHost _ => true
  | .publicHost _ => explicitPort

theorem canonicalAuthority_ofParsed {host : ParsedHost} {scope : Option Bytes}
    (h : host.Canonical scope) (port : Port) (explicitPort : Bool) (path : Bytes) :
    (ofParsed ⟨host, scope, port, explicitPort⟩ path).canonicalAuthority =
      authorityText host scope port (writesPort host explicitPort) := by
  cases host with
  | localHost host =>
    obtain rfl := h
    exact LoopbackAuthority.display_eq _
  | publicHost host => exact canonicalPublicAuthority_eq host scope port explicitPort

end Destination

theorem head_endsAuthority {path : Bytes}
    (h : path = [] ∨ validAbsolutePathAndQuery path = true) :
    ∀ b ∈ path.head?, endsAuthority b = true := by
  intro b hb
  rcases h with rfl | h
  · cases hb
  · rw [validAbsolutePathAndQuery, Bool.and_eq_true, Bool.or_eq_true, beq_iff_eq, beq_iff_eq] at h
    rcases h.1 with h | h
    · obtain rfl := Option.some.inj (h.symm.trans hb)
      rfl
    · obtain rfl := Option.some.inj (h.symm.trans hb)
      rfl

/-- An absolute target is split at its authority. -/
theorem splitAbsolute_http {authority path : Bytes}
    (hauthority : ∀ b ∈ authority, authorityOctet b = true)
    (hpath : path = [] ∨ validAbsolutePathAndQuery path = true) :
    splitAbsolute (ascii "http://" ++ (authority ++ path)) = some (.http, authority, path) := by
  have hstart : ascii "http://" ++ (authority ++ path) =
      ascii "http" ++ 58 :: ([47, 47] ++ (authority ++ path)) := rfl
  have hsplit : splitOnce 58 (ascii "http" ++ 58 :: ([47, 47] ++ (authority ++ path))) =
      some (ascii "http", [47, 47] ++ (authority ++ path)) :=
    splitOnce_eq_some.mpr ⟨rfl, by decide⟩
  have hscheme : parseScheme (ascii "http") = some .http := by decide
  have hno (b : UInt8) (hb : b ∈ authority) : (!endsAuthority b) = true := by
    rw [((octet_classes b).2.2.2.2 (hauthority b hb)).2.2.1]
    rfl
  have hends := head_endsAuthority hpath
  have htake : path.takeWhile (!endsAuthority ·) = [] := by
    cases path with
    | nil => rfl
    | cons b rest => exact List.takeWhile_cons_of_neg (by simp [hends b rfl])
  have hdrop : path.dropWhile (!endsAuthority ·) = path := by
    cases path with
    | nil => rfl
    | cons b rest => exact List.dropWhile_cons_of_neg (by simp [hends b rfl])
  rw [splitAbsolute, hstart, hsplit]
  simp only [bind, Option.bind_some, hscheme, stripPrefix_append, pure,
    List.takeWhile_append_of_pos hno, List.dropWhile_append_of_pos hno, htake, hdrop,
    List.append_nil]

theorem classifyAbsolute_http {authority path : Bytes} (hne : authority ≠ [])
    (hauthority : ∀ b ∈ authority, authorityOctet b = true)
    (huri : validUriOctets authority = true)
    (hpath : path = [] ∨ validAbsolutePathAndQuery path = true) :
    classifyAbsolute (ascii "http://" ++ (authority ++ path)) =
      classifyAuthority authority (some .http) .http path := by
  have hpathUri : validUriOctets path = true ∧ (35 : UInt8) ∉ path := by
    rcases hpath with rfl | h
    · exact ⟨rfl, List.not_mem_nil⟩
    · rw [validAbsolutePathAndQuery, Bool.and_eq_true] at h
      simp only [validPathAndQuery, Bool.and_eq_true, Bool.not_eq_true', List.contains_eq_mem,
        decide_eq_false_iff_not] at h
      exact ⟨h.2.2, h.2.1.1.1⟩
  have hscheme : (ascii "http://").all uriOctet = true := by decide
  have hvalid : validUriOctets (ascii "http://" ++ (authority ++ path)) = true := by
    rw [validUriOctets_append (validUriOctets_of_all (List.all_eq_true.mp hscheme)),
      validUriOctets_append huri, hpathUri.1]
  have hfragment : (35 : UInt8) ∉ ascii "http://" ++ (authority ++ path) := by
    rw [List.mem_append, List.mem_append, not_or, not_or]
    exact ⟨by decide, fun h => absurd (hauthority 35 h) (by decide), hpathUri.2⟩
  have hascii : isAscii authority = true :=
    List.all_eq_true.mpr fun b hb => decide_eq_true (authorityOctet_plain (hauthority b hb)).1
  have hchecks : ¬ (authority.isEmpty ||
      (!path.isEmpty && !validAbsolutePathAndQuery path)) = true := by
    rcases hpath with rfl | h
    · simpa using hne
    · simpa [h] using hne
  unfold classifyAbsolute
  rw [if_neg (by simpa [hvalid] using hfragment), splitAbsolute_http hauthority hpath]
  simp only [fromUtf8_of_isAscii hascii]
  exact if_neg hchecks

theorem classify_http {method : Method} (hmethod : method ≠ Method.connect) (text : Bytes) :
    classify method (ascii "http://" ++ text) = classifyAbsolute (ascii "http://" ++ text) := by
  have hstart : ascii "http://" = 104 :: ascii "ttp://" := by decide
  rw [hstart, List.cons_append]
  unfold classify
  rw [if_neg hmethod, if_neg, if_neg]
  · simp
  · simp

theorem classifyAuthority_http {value path : Bytes} {host : ParsedHost} {scope : Option Bytes}
    {port : Port} {explicitPort : Bool}
    (h : parseAuthority value (some AbsoluteScheme.http.defaultPort) false =
      some ⟨host, scope, port, explicitPort⟩)
    (hwritten : ∀ loopback, host = .localHost loopback → explicitPort = true) :
    classifyAuthority value (some .http) .http path =
      (Destination.ofParsed ⟨host, scope, port, explicitPort⟩ path).asHttp := by
  have hdefault : (some AbsoluteScheme.http).map AbsoluteScheme.defaultPort =
      some AbsoluteScheme.http.defaultPort := rfl
  have hkind : (RequestKind.http == RequestKind.connect) = false := by decide
  unfold classifyAuthority
  simp only [hdefault, hkind, h]
  cases host with
  | localHost loopback =>
    obtain rfl := hwritten loopback rfl
    rfl
  | publicHost host => rfl

/-- **The canonical authority and the path of a destination are classified as that destination.** -/
theorem classify_canonical {method method' : Method} {rawTarget : Bytes} {d : Destination}
    (h : (classify method rawTarget).destination = some d) (hmethod : method' ≠ Method.connect) :
    classify method' (ascii "http://" ++ d.canonicalAuthority ++ d.pathAndQuery) = d.asHttp := by
  obtain ⟨host, scope, port, explicitPort, hd, hcanonical, hport, hpath, -⟩ := destination_denotes h
  have htext : d.canonicalAuthority =
      authorityText host scope port (Destination.writesPort host explicitPort) := by
    rw [hd]
    exact Destination.canonicalAuthority_ofParsed hcanonical _ _ _
  have hwritten : ReadsPort (some AbsoluteScheme.http.defaultPort) false port
      (Destination.writesPort host explicitPort) := by
    unfold Destination.writesPort
    split
    · exact .inl rfl
    · exact hport
  rw [List.append_assoc, classify_http hmethod, htext,
    classifyAbsolute_http (authorityText_ne_nil hcanonical _ _)
      (fun b hb => authorityText_byte hcanonical hb) (validUriOctets_authorityText hcanonical _ _)
      hpath,
    classifyAuthority_http (parseAuthority_authorityText hcanonical hwritten)]
  · conv_rhs => rw [hd]
    cases host with
    | localHost host => rfl
    | publicHost host => rfl
  · rintro loopback rfl
    rfl

/-! ## Equal destinations -/

/-- The canonical authority is the text of a host, and of a port where it is written. -/
def WrittenAs (authority host : Bytes) (port : Port) : Prop :=
  authority = host ∨ authority = host ++ 58 :: port.display

theorem Destination.writtenAs {host : ParsedHost} {scope : Option Bytes}
    (h : host.Canonical scope) (port : Port) (explicitPort : Bool) (path : Bytes) :
    WrittenAs (ofParsed ⟨host, scope, port, explicitPort⟩ path).canonicalAuthority
      (host.display scope) port := by
  rw [canonicalAuthority_ofParsed h, authorityText, portTail]
  split
  · exact .inr rfl
  · exact .inl (List.append_nil _)

/-- What the proxy does with two destinations is the same. -/
structure SameDestination (d d' : Destination) : Prop where
  originKey : d.originKey = d'.originKey
  denial : d.denial = d'.denial
  decision (paths : List PolicyFile) (modePath : PolicyFile) (locals : List.Vector PolicyFile 3) :
    d.decision paths modePath locals = d'.decision paths modePath locals
  authority : ∃ host port, WrittenAs d.canonicalAuthority host port ∧
    WrittenAs d'.canonicalAuthority host port

/-- **Targets that denote the same go to the same destination.** -/
theorem sameDestination_of_denotes {method method' : Method} {rawTarget rawTarget' : Bytes}
    {d d' : Destination} {host : HostMeaning} {port : Port}
    (h : (classify method rawTarget).destination = some d)
    (h' : (classify method' rawTarget').destination = some d')
    (hdenotes : TargetDenotes method rawTarget host port)
    (hdenotes' : TargetDenotes method' rawTarget' host port) : SameDestination d d' := by
  obtain ⟨parsed, scope, port₁, explicitPort, hd, hcanonical, -, -, hown⟩ := destination_denotes h
  obtain ⟨parsed', scope', port₂, explicitPort', hd', hcanonical', -, -, hown'⟩ :=
    destination_denotes h'
  obtain ⟨hhost, hport⟩ := hown.unique hdenotes
  obtain ⟨hhost', hport'⟩ := hown'.unique hdenotes'
  obtain rfl : port₁ = port₂ := hport.trans hport'.symm
  obtain ⟨rfl, rfl⟩ := ParsedHost.eq_of_meaning hcanonical hcanonical' (hhost.trans hhost'.symm)
  rw [hd, hd']
  have hauthority := Destination.writtenAs hcanonical port₁ explicitPort d.pathAndQuery
  have hauthority' := Destination.writtenAs hcanonical port₁ explicitPort' d'.pathAndQuery
  cases parsed with
  | localHost host => exact ⟨rfl, rfl, fun _ _ _ => rfl, _, _, hauthority, hauthority'⟩
  | publicHost host => exact ⟨rfl, rfl, fun _ _ _ => rfl, _, _, hauthority, hauthority'⟩

/-! ## The law of classification -/

/-- A CONNECT target goes to no HTTP destination. -/
theorem classify_connect (rawTarget : Bytes) :
    (∀ target, classify Method.connect rawTarget ≠ .publicHttp target) ∧
      ∀ target, classify Method.connect rawTarget ≠ .localHttp target := by
  have hauthority : (∀ target, classifyAuthority rawTarget none .connect [] ≠ .publicHttp target) ∧
      ∀ target, classifyAuthority rawTarget none .connect [] ≠ .localHttp target := by
    unfold classifyAuthority
    split
    · exact ⟨nofun, nofun⟩
    · split
      · exact ⟨nofun, nofun⟩
      · split
        · exact ⟨nofun, nofun⟩
        · exact ⟨nofun, nofun⟩
  rw [classify, if_pos rfl, classifyConnect]
  split
  · exact ⟨nofun, nofun⟩
  · rename_i text htext
    rw [fromUtf8_eq_some htext]
    split
    · exact ⟨nofun, nofun⟩
    · exact hauthority

/-- What a classifier of raw targets owes the destinations that it accepts. -/
structure TargetLaw (classify : Method → Bytes → Target) : Prop where
  publicAgain {method : Method} {rawTarget : Bytes} {target : PublicTarget}
    (h : classify method rawTarget = .publicHttp target) : method ≠ Method.connect ∧
      ∀ method' ≠ Method.connect,
        classify method' (ascii "http://" ++ target.authority ++ target.pathAndQuery) =
          .publicHttp target
  localAgain {method : Method} {rawTarget : Bytes} {target : LocalTarget}
    (h : classify method rawTarget = .localHttp target) : method ≠ Method.connect ∧
      ∀ method' ≠ Method.connect,
        classify method' (ascii "http://" ++ target.canonicalAuthority.display ++
          target.pathAndQuery) = .localHttp { target with explicitPort := true }
  denotes {method : Method} {rawTarget : Bytes} {d : Destination}
    (h : (classify method rawTarget).destination = some d) :
      ∃! denoted : HostMeaning × Port, TargetDenotes method rawTarget denoted.1 denoted.2
  identifies {method method' : Method} {rawTarget rawTarget' : Bytes} {d d' : Destination}
    {host : HostMeaning} {port : Port} (h : (classify method rawTarget).destination = some d)
    (h' : (classify method' rawTarget').destination = some d')
    (hdenotes : TargetDenotes method rawTarget host port)
    (hdenotes' : TargetDenotes method' rawTarget' host port) : SameDestination d d'
  safe {method : Method} {rawTarget : Bytes} {d : Destination}
    (h : (classify method rawTarget).destination = some d) :
      ∀ b ∈ d.canonicalAuthority, authorityOctet b = true ∧ Ascii.isControl b = false ∧
        Ascii.isWhitespace b = false

/-- **Classification is idempotent and identifies equal destinations.** -/
theorem classify_canonicalises : TargetLaw classify where
  publicAgain {method rawTarget target} h := by
    have hd : (classify method rawTarget).destination = some (.toPublic target) := by
      rw [h]
      rfl
    refine ⟨?_, fun method' hmethod => ?_⟩
    · rintro rfl
      exact (classify_connect rawTarget).1 target h
    · have hagain := classify_canonical hd hmethod
      rw [Destination.asHttp] at hagain
      exact hagain
  localAgain {method rawTarget target} h := by
    have hd : (classify method rawTarget).destination = some (.toLocal target) := by
      rw [h]
      rfl
    refine ⟨?_, fun method' hmethod => ?_⟩
    · rintro rfl
      exact (classify_connect rawTarget).2 target h
    · have hagain := classify_canonical hd hmethod
      rw [Destination.asHttp] at hagain
      exact hagain
  denotes h := by
    obtain ⟨host, scope, port, _, -, -, -, -, hown⟩ := destination_denotes h
    refine ⟨(host.meaning scope, port), hown, fun denoted hdenoted => ?_⟩
    obtain ⟨hhost, hport⟩ := TargetDenotes.unique hdenoted hown
    exact Prod.ext hhost hport
  identifies h h' hdenotes hdenotes' := sameDestination_of_denotes h h' hdenotes hdenotes'
  safe {method rawTarget d} h b hb := by
    obtain ⟨host, scope, port, explicitPort, hd, hcanonical, -, -, -⟩ := destination_denotes h
    rw [hd, Destination.canonicalAuthority_ofParsed hcanonical] at hb
    have hoctet := authorityText_byte hcanonical hb
    exact ⟨hoctet, ((octet_classes b).2.2.2.2 hoctet).2.2.2⟩

end Vhrn.Proxy
