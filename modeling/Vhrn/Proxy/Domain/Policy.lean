import Vhrn.Proxy.Domain.Loopback

/-!
# Policy snapshots

A snapshot of the policy files and what it decides for one host. A public layer is a list of entries,
a local layer a list of canonical loopback authorities, and both are read strictly: one malformed
line spoils the layer.
-/

namespace Vhrn.Proxy

/-! ## Modes and decisions -/

inductive Mode
  | enforce
  | report
  | open
  deriving DecidableEq, Repr

def Mode.asStr : Mode → Bytes
  | .enforce => ascii "enforce"
  | .report => ascii "report"
  | .open => ascii "open"

structure PublicDecision where
  allowed : Bool
  recordDenial : Bool
  effectiveMode : Mode
  invalidInput : Bool
  deriving DecidableEq, Repr

structure LocalDecision where
  allowed : Bool
  invalidInput : Bool
  deriving DecidableEq, Repr

/-! ## Snapshots -/

structure PublicPolicySnapshot where
  mode : Mode
  entries : List PolicyEntry

namespace PublicPolicySnapshot

def empty : PublicPolicySnapshot := { mode := .enforce, entries := [] }

/-- Some entry matches the host: a domain entry by its labels, an IPv4 entry by equality, and no
entry an IPv6 literal. -/
def matched (snapshot : PublicPolicySnapshot) : PublicHost → Bool
  | .dns host => snapshot.entries.any fun
    | .domain pattern => pattern.matches host
    | .ip _ => false
  | .ip (.v4 host) => snapshot.entries.contains (.ip host)
  | .ip (.v6 _) => false

def decide (snapshot : PublicPolicySnapshot) (host : PublicHost) (invalidInput : Bool) :
    PublicDecision :=
  let matched := snapshot.matched host
  match snapshot.mode with
  | .enforce =>
    { allowed := matched, recordDenial := !matched, effectiveMode := .enforce, invalidInput }
  | .report =>
    { allowed := true, recordDenial := !matched, effectiveMode := .report, invalidInput }
  | .open =>
    { allowed := true, recordDenial := false, effectiveMode := .open, invalidInput }

end PublicPolicySnapshot

structure LocalPolicySnapshot where
  authorities : List LoopbackAuthority

namespace LocalPolicySnapshot

def empty : LocalPolicySnapshot := { authorities := [] }

def decide (snapshot : LocalPolicySnapshot) (authority : LoopbackAuthority) (invalidInput : Bool) :
    LocalDecision :=
  { allowed := snapshot.authorities.contains authority, invalidInput }

end LocalPolicySnapshot

/-! ## File contents -/

def parseMode (contents : Bytes) : Option Mode :=
  if contents = ascii "enforce" ∨ contents = ascii "enforce\n" then some .enforce
  else if contents = ascii "report" ∨ contents = ascii "report\n" then some .report
  else if contents = ascii "open" ∨ contents = ascii "open\n" then some .open
  else none

/-- The lines of a policy file. One final line feed is dropped, and no line may be the whole rest. -/
def strictLines (contents : Bytes) : Option (List Bytes) :=
  if contents.isEmpty then some []
  else
    let body := (stripSuffix [10] contents).getD contents
    if body.isEmpty then none else some (body.splitOn 10)

def parseDomainLayer (contents : Bytes) : Option (List PolicyEntry) :=
  (strictLines contents).bind fun lines => lines.mapM PolicyEntry.fromStr

/-- The authority a line of a local layer holds, which must be spelled canonically. -/
def parseLocalLine (line : Bytes) : Option LoopbackAuthority :=
  match LoopbackAuthority.fromStr line with
  | .ok authority => if authority.display = line then some authority else none
  | .error _ => none

def parseLocalLayer (contents : Bytes) : Option (List LoopbackAuthority) :=
  (strictLines contents).bind fun lines => lines.mapM parseLocalLine

/-- The number of the first line that is not valid. -/
def firstInvalidLine (contents : Bytes) (valid : Bytes → Bool) : ℕ :=
  match (strictLines contents).bind fun lines => lines.findIdx? (!valid ·) with
  | some index => index + 1
  | none => 1

def isCanonicalLocalAuthority (value : Bytes) : Bool := (parseLocalLine value).isSome

/-! ## What a layer means -/

/-- An entry that lets a host through. -/
def PolicyEntry.Matches : PolicyEntry → PublicHost → Prop
  | .domain pattern, .dns host => labels pattern.domain.text <:+ labels host.text
  | .ip address, .ip (.v4 host) => address = host
  | _, _ => False

theorem PublicPolicySnapshot.matched_iff (snapshot : PublicPolicySnapshot) (host : PublicHost) :
    snapshot.matched host = true ↔ ∃ entry ∈ snapshot.entries, entry.Matches host := by
  match host with
  | .dns host =>
    rw [matched, List.any_eq_true]
    refine exists_congr fun entry => and_congr_right fun _ => ?_
    cases entry with
    | domain pattern => exact pattern.matches_iff host
    | ip address => exact iff_of_false (by simp) not_false
  | .ip (.v4 host) =>
    rw [matched, List.contains_iff_mem]
    constructor
    · intro h
      exact ⟨_, h, rfl⟩
    · rintro ⟨entry, he, hm⟩
      cases entry with
      | domain pattern => exact absurd hm not_false
      | ip address =>
        obtain rfl : address = host := hm
        exact he
  | .ip (.v6 host) =>
    refine iff_of_false (by simp [matched]) ?_
    rintro ⟨entry, -, hm⟩
    cases entry <;> exact hm

/-- A line-wise layer is read from exactly the texts whose lines are all valid. -/
theorem mem_of_mapM_lines {α : Type} {parse : Bytes → Option α} {lines : List Bytes}
    {entries : List α} (h : lines.mapM parse = some entries) (e : α) :
    e ∈ entries ↔ ∃ line ∈ lines, parse line = some e := by
  induction lines generalizing entries with
  | nil =>
    obtain rfl : entries = [] := by simpa using h.symm
    simp
  | cons line lines ih =>
    rw [List.mapM_cons] at h
    simp only [bind, Option.bind_eq_some_iff, pure, Option.some.injEq] at h
    obtain ⟨x, hx, xs, hxs, rfl⟩ := h
    rw [List.mem_cons, ih hxs, List.exists_mem_cons_iff, hx, Option.some.injEq, eq_comm]

theorem mapM_lines_isSome {α : Type} {parse : Bytes → Option α} {lines : List Bytes} :
    (lines.mapM parse).isSome = true ↔ ∀ line ∈ lines, (parse line).isSome = true := by
  induction lines with
  | nil => simp
  | cons line lines ih =>
    rw [List.mapM_cons, List.forall_mem_cons, ← ih]
    cases parse line <;> cases lines.mapM parse <;> simp

theorem parseLocalLine_eq_some {line : Bytes} {authority : LoopbackAuthority} :
    parseLocalLine line = some authority ↔ line = authority.display := by
  unfold parseLocalLine
  constructor
  · intro h
    split at h
    · split at h
      · rename_i hd
        obtain rfl := Option.some.inj h
        exact hd.symm
      · cases h
    · cases h
  · rintro rfl
    rw [LoopbackAuthority.fromStr_display]
    exact if_pos rfl

/-! ## Texts made of lines -/

/-- A text with every line ended. -/
def unlines (lines : List Bytes) : Bytes := (lines.map (· ++ [10])).flatten

theorem unlines_eq_intercalate {lines : List Bytes} (h : lines ≠ []) :
    unlines lines = [10].intercalate lines ++ [10] := by
  induction lines with
  | nil => exact absurd rfl h
  | cons line lines ih =>
    cases lines with
    | nil => simp [unlines]
    | cons next lines =>
      have hrest : unlines (next :: lines) = _ := ih (by simp)
      rw [List.intercalate_cons_cons]
      calc unlines (line :: next :: lines) = (line ++ [10]) ++ unlines (next :: lines) := by
            simp [unlines]
        _ = _ := by rw [hrest]; simp

/-- **A text of non-empty lines is read back line by line.** -/
theorem strictLines_unlines {lines : List Bytes} (hne : ∀ line ∈ lines, line ≠ [])
    (hlf : ∀ line ∈ lines, (10 : UInt8) ∉ line) : strictLines (unlines lines) = some lines := by
  by_cases h : lines = []
  · subst h
    rfl
  · have hbody : stripSuffix [10] (unlines lines) = some ([10].intercalate lines) := by
      rw [unlines_eq_intercalate h]
      exact stripSuffix_append _ _
    have hnil : [10].intercalate lines ≠ [] := by
      cases lines with
      | nil => exact absurd rfl h
      | cons line rest =>
        have hl := hne line (by simp)
        cases rest with
        | nil => simpa using hl
        | cons next rest => simp [List.intercalate_cons_cons, hl]
    have hunl : unlines lines ≠ [] := by
      rw [unlines_eq_intercalate h]
      simp
    unfold strictLines
    rw [if_neg (by simpa using hunl), hbody, Option.getD_some, if_neg (by simpa using hnil),
      List.splitOn_intercalate 10 hlf h]

end Vhrn.Proxy
