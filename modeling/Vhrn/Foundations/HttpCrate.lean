import Vhrn.Foundations.Bytes

/-!
# The HTTP vocabulary

Header names, header values, header maps and the other HTTP types that a program takes from a library.
`HttpCrate` is the library's interface: its operations with the documented facts about them. A header
map is known by its values for each name (`getAll`) and by one order of iteration, which is not
specified beyond keeping the values of a name in their order. `HttpCrate.reference` is one such library.
-/

namespace Vhrn

/-! ## Octet classes -/

/-- An octet of a token. -/
def tokenOctet (b : UInt8) : Bool :=
  Ascii.isAlnum b || [33, 35, 36, 37, 38, 39, 42, 43, 45, 46, 94, 95, 96, 124, 126].contains b

def validToken (value : Bytes) : Bool := !value.isEmpty && value.all tokenOctet

/-- An octet of a field value. -/
def fieldOctet (b : UInt8) : Bool := b == 9 || (32 ≤ b && b != 127)

/-- A visible ASCII octet, a space or a tab. -/
def visibleOctet (b : UInt8) : Bool := b == 9 || (32 ≤ b && b < 127)

theorem fieldOctet_of_visible (b : UInt8) : visibleOctet b = true → fieldOctet b = true := by
  revert b; exact forall_byte (by decide +kernel)

theorem fieldOctet_of_isDigit (b : UInt8) : Ascii.isDigit b = true → fieldOctet b = true := by
  revert b; exact forall_byte (by decide +kernel)

/-- An octet of a host written without a user, a zone or escapes. -/
def hostOctet (b : UInt8) : Bool := Ascii.isAlnum b || b == 45 || b == 46 || b == 95 || b == 126

/-- An octet of an IPv6 literal with its zone. -/
def literalOctet (b : UInt8) : Bool := hostOctet b || b == 58 || b == 37

/-- The values of one name in a list of fields. -/
def valuesOf {N V : Type} [DecidableEq N] (name : N) (fields : List (N × V)) : List V :=
  (fields.filter fun field => decide (field.1 = name)).map Prod.snd

/-- Fields whose name is left out where it is the name before. -/
def fillNames {N V : Type} : Option N → List (Option N × V) → List (N × V)
  | _, [] => []
  | _, (some name, value) :: fields => (name, value) :: fillNames (some name) fields
  | some name, (none, value) :: fields => (name, value) :: fillNames (some name) fields
  | none, (none, _) :: fields => fillNames none fields

/-- Fields with the same values for each name are the same but for their order. -/
theorem perm_of_valuesOf {N V : Type} [DecidableEq N] {fields fields' : List (N × V)}
    (h : ∀ name, valuesOf name fields = valuesOf name fields') : fields.Perm fields' := by
  classical
  have hcount (fields : List (N × V)) (name : N) (value : V) :
      fields.count (name, value) = (valuesOf name fields).count value := by
    induction fields with
    | nil => rfl
    | cons field fields ih =>
      obtain ⟨name', value'⟩ := field
      by_cases hname : name' = name
      · subst hname
        by_cases hvalue : value' = value
        · subst hvalue
          simp [valuesOf, ih]
        · simp [valuesOf, ih, hvalue]
      · simp [valuesOf, ih, hname]
  refine List.perm_iff_count.mpr fun field => ?_
  rw [hcount fields, hcount fields', h]

/-! ## The library -/

/-- An HTTP library: its operations and what is documented about them. -/
class HttpCrate where
  HeaderName : Type
  HeaderValue : Type
  HeaderMap : Type
  nameEq : DecidableEq HeaderName
  nameStr : HeaderName → Bytes
  nameFromBytes : Bytes → Option HeaderName
  valueBytes : HeaderValue → Bytes
  valueFromBytes : Bytes → Option HeaderValue
  valueFromStr : Bytes → Option HeaderValue
  valueToStr : HeaderValue → Option Bytes
  empty : HeaderMap
  append : HeaderMap → HeaderName → HeaderValue → HeaderMap
  insert : HeaderMap → HeaderName → HeaderValue → HeaderMap
  remove : HeaderMap → HeaderName → HeaderMap
  extend : HeaderMap → HeaderMap → HeaderMap
  getAll : HeaderMap → HeaderName → List HeaderValue
  /-- The fields in the order of iteration. -/
  fields : HeaderMap → List (HeaderName × HeaderValue)
  /-- The fields in the order of consumption, a repeated name left out. -/
  intoIter : HeaderMap → List (Option HeaderName × HeaderValue)
  isMethod : Bytes → Bool
  canonicalReason : ℕ → Option Bytes
  /-- The texts that parse as the authority of a URI. -/
  isAuthority : Bytes → Bool
  /-- A name is a token of bounded length, kept in lower case. -/
  nameFromBytes_eq_some : ∀ {bytes name}, nameFromBytes bytes = some name →
    nameStr name = lower bytes ∧ validToken bytes = true
  nameFromBytes_isSome : ∀ {bytes}, validToken bytes = true → bytes.length ≤ 65535 →
    (nameFromBytes bytes).isSome = true
  nameFromBytes_nameStr : ∀ name, nameFromBytes (nameStr name) = some name
  /-- A value is kept as it is. -/
  valueFromBytes_eq_some : ∀ {bytes value}, valueFromBytes bytes = some value →
    valueBytes value = bytes
  valueFromBytes_isSome : ∀ bytes, (valueFromBytes bytes).isSome = bytes.all fieldOctet
  valueFromBytes_valueBytes : ∀ value, valueFromBytes (valueBytes value) = some value
  valueFromStr_visible : ∀ {bytes}, bytes.all visibleOctet = true →
    valueFromStr bytes = valueFromBytes bytes
  valueToStr_eq : ∀ value, valueToStr value =
    if (valueBytes value).all visibleOctet then some (valueBytes value) else none
  /-- A header map keeps the values of each name in their order. -/
  getAll_empty : ∀ name, getAll empty name = []
  getAll_append : ∀ map name value k, getAll (append map name value) k =
    if k = name then getAll map k ++ [value] else getAll map k
  getAll_insert : ∀ map name value k, getAll (insert map name value) k =
    if k = name then [value] else getAll map k
  getAll_remove : ∀ map name k, getAll (remove map name) k =
    if k = name then [] else getAll map k
  getAll_extend : ∀ map map' k, getAll (extend map map') k =
    if getAll map' k = [] then getAll map k else getAll map' k
  valuesOf_fields : ∀ map k, valuesOf k (fields map) = getAll map k
  intoIter_head : ∀ map, (intoIter map).head?.all fun field => field.1.isSome
  valuesOf_intoIter : ∀ map k, valuesOf k (fillNames none (intoIter map)) = getAll map k
  isMethod_token : ∀ {bytes}, isMethod bytes = true → validToken bytes = true
  canonicalReason_visible : ∀ {status reason}, canonicalReason status = some reason →
    reason.all visibleOctet = true
  /-- A host name or an IPv4 address, with or without a port. -/
  isAuthority_host : ∀ {host}, host ≠ [] → host.all hostOctet = true → isAuthority host = true
  isAuthority_hostPort : ∀ {host port}, host ≠ [] → host.all hostOctet = true →
    port.all Ascii.isDigit = true → isAuthority (host ++ 58 :: port) = true
  /-- A bracketed IPv6 address, with or without a zone and a port. -/
  isAuthority_literal : ∀ {literal}, literal.all literalOctet = true → literal.count 58 ≤ 8 →
    isAuthority (91 :: (literal ++ [93])) = true
  isAuthority_literalPort : ∀ {literal port}, literal.all literalOctet = true →
    literal.count 58 ≤ 8 → port.all Ascii.isDigit = true →
      isAuthority (91 :: (literal ++ 93 :: 58 :: port)) = true

section

variable [HttpCrate]

abbrev HeaderName : Type := HttpCrate.HeaderName

instance : DecidableEq HeaderName := HttpCrate.nameEq

abbrev HeaderValue : Type := HttpCrate.HeaderValue

abbrev HeaderMap : Type := HttpCrate.HeaderMap

namespace HeaderName

abbrev asStr (name : HeaderName) : Bytes := HttpCrate.nameStr name

abbrev fromBytes (bytes : Bytes) : Option HeaderName := HttpCrate.nameFromBytes bytes

/-- A name that the program writes itself. -/
def ofStatic (bytes : Bytes) (h : (validToken bytes && decide (bytes.length ≤ 65535)) = true) :
    HeaderName :=
  (fromBytes bytes).get <| by
    rw [Bool.and_eq_true, decide_eq_true_eq] at h
    exact HttpCrate.nameFromBytes_isSome h.1 h.2

theorem asStr_ofStatic {bytes : Bytes}
    (h : (validToken bytes && decide (bytes.length ≤ 65535)) = true) :
    (ofStatic bytes h).asStr = lower bytes :=
  (HttpCrate.nameFromBytes_eq_some (Option.some_get _).symm).1

theorem fromBytes_asStr (name : HeaderName) : fromBytes name.asStr = some name :=
  HttpCrate.nameFromBytes_nameStr name

theorem validToken_asStr (name : HeaderName) : validToken name.asStr = true :=
  (HttpCrate.nameFromBytes_eq_some name.fromBytes_asStr).2

/-! The names of standard fields. -/

def connection : HeaderName := .ofStatic (ascii "connection") (by decide)

def contentLength : HeaderName := .ofStatic (ascii "content-length") (by decide)

def contentType : HeaderName := .ofStatic (ascii "content-type") (by decide)

def expect : HeaderName := .ofStatic (ascii "expect") (by decide)

def host : HeaderName := .ofStatic (ascii "host") (by decide)

def transferEncoding : HeaderName := .ofStatic (ascii "transfer-encoding") (by decide)

def upgrade : HeaderName := .ofStatic (ascii "upgrade") (by decide)

def via : HeaderName := .ofStatic (ascii "via") (by decide)

def allow : HeaderName := .ofStatic (ascii "allow") (by decide)

end HeaderName

namespace HeaderValue

abbrev asBytes (value : HeaderValue) : Bytes := HttpCrate.valueBytes value

abbrev fromBytes (bytes : Bytes) : Option HeaderValue := HttpCrate.valueFromBytes bytes

abbrev fromStr (text : Bytes) : Option HeaderValue := HttpCrate.valueFromStr text

abbrev toStr (value : HeaderValue) : Option Bytes := HttpCrate.valueToStr value

/-- A value that the program writes itself. -/
def ofStatic (bytes : Bytes) (h : bytes.all fieldOctet = true) : HeaderValue :=
  (fromBytes bytes).get (by rw [HttpCrate.valueFromBytes_isSome, h])

theorem asBytes_ofStatic {bytes : Bytes} (h : bytes.all fieldOctet = true) :
    (ofStatic bytes h).asBytes = bytes :=
  HttpCrate.valueFromBytes_eq_some (Option.some_get _).symm

theorem fromBytes_asBytes (value : HeaderValue) : fromBytes value.asBytes = some value :=
  HttpCrate.valueFromBytes_valueBytes value

theorem asBytes_injective : Function.Injective asBytes := fun a b h =>
  Option.some.inj <| by
    rw [← HttpCrate.valueFromBytes_valueBytes a, ← HttpCrate.valueFromBytes_valueBytes b]
    exact congrArg _ h

theorem all_fieldOctet (value : HeaderValue) : value.asBytes.all fieldOctet = true := by
  rw [← HttpCrate.valueFromBytes_isSome, HttpCrate.valueFromBytes_valueBytes, Option.isSome_some]

theorem fromStr_visible {text : Bytes} (h : text.all visibleOctet = true) :
    ∃ value, fromStr text = some value ∧ value.asBytes = text := by
  have hfield : text.all fieldOctet = true :=
    List.all_eq_true.mpr fun b hb => fieldOctet_of_visible b (List.all_eq_true.mp h b hb)
  have hsome : (fromBytes text).isSome = true := by rw [HttpCrate.valueFromBytes_isSome, hfield]
  obtain ⟨value, hv⟩ := Option.isSome_iff_exists.mp hsome
  exact ⟨value, (HttpCrate.valueFromStr_visible h).trans hv, HttpCrate.valueFromBytes_eq_some hv⟩

end HeaderValue

namespace HeaderMap

abbrev empty : HeaderMap := HttpCrate.empty

abbrev append (map : HeaderMap) (name : HeaderName) (value : HeaderValue) : HeaderMap :=
  HttpCrate.append map name value

abbrev insert (map : HeaderMap) (name : HeaderName) (value : HeaderValue) : HeaderMap :=
  HttpCrate.insert map name value

abbrev remove (map : HeaderMap) (name : HeaderName) : HeaderMap := HttpCrate.remove map name

abbrev extend (map map' : HeaderMap) : HeaderMap := HttpCrate.extend map map'

abbrev getAll (map : HeaderMap) (name : HeaderName) : List HeaderValue :=
  HttpCrate.getAll map name

abbrev fields (map : HeaderMap) : List (HeaderName × HeaderValue) := HttpCrate.fields map

/-- The first value of a name. -/
def get (map : HeaderMap) (name : HeaderName) : Option HeaderValue := (map.getAll name).head?

def contains (map : HeaderMap) (name : HeaderName) : Bool := !(map.getAll name).isEmpty

def isEmpty (map : HeaderMap) : Bool := map.fields.isEmpty

theorem valuesOf_fields (map : HeaderMap) (name : HeaderName) :
    valuesOf name map.fields = map.getAll name := HttpCrate.valuesOf_fields map name

theorem mem_fields {map : HeaderMap} {name : HeaderName} {value : HeaderValue} :
    (name, value) ∈ map.fields ↔ value ∈ map.getAll name := by
  rw [← valuesOf_fields]
  simp [valuesOf]

/-- A map without values has no fields. -/
theorem fields_eq_nil {map : HeaderMap} (h : ∀ name, map.getAll name = []) : map.fields = [] := by
  refine List.eq_nil_iff_forall_not_mem.mpr fun field hfield => ?_
  have hvalue : field.2 ∈ map.getAll field.1 := mem_fields.mp hfield
  rw [h] at hvalue
  exact List.not_mem_nil hvalue

theorem fields_empty : empty.fields = [] := fields_eq_nil HttpCrate.getAll_empty

end HeaderMap

end

end Vhrn
