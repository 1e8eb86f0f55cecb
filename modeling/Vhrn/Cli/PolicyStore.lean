import Vhrn.Cli.Names
import Vhrn.Foundations.Keeps

/-!
# The policy store

The host keeps its policy in files: a global domain file and a global loopback file, the same pair for
every project, and for every published run the snapshots it was launched with. `Store` holds their
contents and every operation of the command line on them is a computation over it. An operation that
fails leaves the state it has reached, as the files do.
-/

namespace Vhrn.Cli

/-! ## Files -/

structure ProjectDir where
  key : Bytes
  path : Bytes
  allow : Bytes
  loopback : Bytes

/-- A mode file: what its metadata shows, and what reading it finds. -/
structure ModeFile where
  regular : Bool
  permissions : ℕ
  contents : Option Bytes

/-- A published run. Its lease is held while the process that owns it lives. -/
structure RunDir where
  id : Bytes
  leased : Bool
  harness : Bytes
  projectKey : Bytes
  projectPath : Bytes
  base : Bytes
  harnessAllow : Bytes
  run : Bytes
  loopback : Bytes
  mode : Option ModeFile

structure Store where
  global : Option Bytes
  globalLoopback : Option Bytes
  log : Option Bytes
  projects : List ProjectDir
  runs : List RunDir
  /-- Directories have different names. -/
  distinct : (projects.map ProjectDir.key).Nodup

def Store.empty : Store :=
  { global := none
    globalLoopback := none
    log := none
    projects := []
    runs := []
    distinct := List.nodup_nil }

/-- The store with one more project. -/
def Store.addProject (store : Store) (dir : ProjectDir)
    (hnew : store.projects.find? (fun other => other.key == dir.key) = none) : Store :=
  { store with
    projects := store.projects ++ [dir]
    distinct := by
      rw [List.map_append, List.map_singleton, ← List.concat_eq_append]
      refine List.Nodup.concat (fun hmem => ?_) store.distinct
      obtain ⟨other, hother, hkey⟩ := List.mem_map.mp hmem
      exact List.find?_eq_none.mp hnew other hother (beq_iff_eq.mpr hkey) }

/-- The store with the files of one project changed. -/
def Store.setProject (store : Store) (key : Bytes) (f : ProjectDir → ProjectDir)
    (hf : ∀ dir, (f dir).key = dir.key) : Store :=
  { store with
    projects := store.projects.map fun dir => if dir.key = key then f dir else dir
    distinct := by
      have hkeys : ProjectDir.key ∘ (fun dir => if dir.key = key then f dir else dir) =
          ProjectDir.key := by
        funext dir
        show (if dir.key = key then f dir else dir).key = dir.key
        split
        · exact hf dir
        · rfl
      rw [List.map_map, hkeys]
      exact store.distinct }

inductive StoreError
  | input (error : InputError)
  | invalidData (message : Bytes)
  | notFound
  | alreadyExists (message : Bytes)
  | io (error : IoError)
  | assertion (message : Bytes)
  deriving DecidableEq

abbrev StoreM := StateExcept Store StoreError

def ofInput {α : Type} (x : Except InputError α) : StoreM α :=
  liftM (x.mapError StoreError.input)

/-! ## Texts of the files -/

def domainsText (domains : List PolicyName) : Bytes := Proxy.unlines (domains.map PolicyName.text)

def loopbackText (authorities : List LoopbackAuthority) : Bytes :=
  Proxy.unlines (authorities.map LoopbackAuthority.display)

def readLines (contents : Bytes) : Except InputError (List Bytes) :=
  match fromUtf8 contents with
  | some text => .ok (lines text)
  | none => .error .notUtf8

def readDomains [Host] (contents : Bytes) : Except InputError (List PolicyName) := do
  normalizeDomains (← readLines contents)

def readLoopbackAuthorities (contents : Bytes) : Except InputError (List LoopbackAuthority) := do
  normalizeLoopbackAuthorities (← readLines contents)

def writeDomains [Host] (domains : List Bytes) : Except InputError Bytes :=
  (normalizeDomains domains).map domainsText

/-- Adds what is missing, then removes a batch that must be there as a whole. -/
def mutateEntries {α : Type} [DecidableEq α] (display : α → Bytes) (entries add remove : List α) :
    Except InputError (List α) :=
  let entries := add.foldl pushNew entries
  let missing := remove.filter (· ∉ entries)
  if missing.isEmpty then .ok (entries.filter (· ∉ remove))
  else .error (.notAllowed (missing.map display))

def mutateFile [Host] (contents : Bytes) (add remove : List PolicyName) : Except InputError Bytes := do
  let domains ← readDomains contents
  return domainsText (← mutateEntries PolicyName.text domains add remove)

def mutateLoopbackFile (contents : Bytes) (add remove : List LoopbackAuthority) :
    Except InputError Bytes := do
  let authorities ← readLoopbackAuthorities contents
  return loopbackText (← mutateEntries LoopbackAuthority.display authorities add remove)

/-! ## Layers and provenance -/

inductive LayerSource
  | base
  | harness (name : Bytes)
  | global
  | project (path : Bytes)
  | run (id : Bytes)
  deriving DecidableEq

/-- An effective entry and the layers it comes from. -/
structure Resolved (α : Type) where
  entry : α
  sources : List LayerSource

/-- Notes one more source of an entry, at the place of its first appearance. -/
def addSource {α : Type} [DecidableEq α] (source : LayerSource) (entry : α) :
    List (Resolved α) → List (Resolved α)
  | [] => [⟨entry, [source]⟩]
  | resolved :: rest =>
    if resolved.entry = entry then { resolved with sources := resolved.sources ++ [source] } :: rest
    else resolved :: addSource source entry rest

def resolveEntries {α : Type} [DecidableEq α] (layers : List (List α × LayerSource)) :
    List (Resolved α) :=
  layers.foldl (fun output layer =>
    layer.1.foldl (fun output entry => addSource layer.2 entry output) output) []

def resolveLayers [Host] (layers : List (List Bytes × LayerSource)) :
    Except InputError (List (Resolved PolicyName)) := do
  let layers ← layers.mapM fun layer => do return (← layer.1.mapM normalizeDomain, layer.2)
  return resolveEntries layers

def resolveLoopbackLayers (layers : List (List LoopbackAuthority × LayerSource)) :
    List (Resolved LoopbackAuthority) := resolveEntries layers

/-! ## Reading the store -/

structure PolicyProject where
  key : Bytes
  path : Bytes
  domains : List PolicyName
  loopback : List LoopbackAuthority

structure ActiveRun where
  id : Bytes
  harness : Bytes
  projectKey : Bytes
  projectPath : Bytes
  mode : Bytes
  effective : List (Resolved PolicyName)
  effectiveLoopback : List (Resolved LoopbackAuthority)

structure PolicySnapshot where
  global : List PolicyName
  loopback : List LoopbackAuthority
  projects : List PolicyProject
  runs : List ActiveRun

/-- Lexicographic order of octets. -/
def bytesLe : Bytes → Bytes → Bool
  | [], _ => true
  | _ :: _, [] => false
  | a :: s, b :: t => decide (a < b) || (a == b && bytesLe s t)

/-- The present contents of a file. -/
def present (contents : Option Bytes) : StoreM Bytes :=
  match contents with
  | some contents => return contents
  | none => throw .notFound

def readTrimmed (contents label : Bytes) : Except StoreError Bytes :=
  match fromUtf8 contents with
  | none => .error (.input .notUtf8)
  | some text =>
    let value := trim text
    if value.isEmpty || value.contains 10 || value.contains 13 then
      .error (.invalidData (ascii "invalid " ++ label))
    else .ok value

/-- Removes the runs whose lease is free. -/
def reapRuns : StoreM Unit := modify fun store => { store with runs := store.runs.filter RunDir.leased }

def listedProject [Host] (dir : ProjectDir) : StoreM PolicyProject := do
  if Host.keyForBytes dir.path ≠ dir.key then
    throw (.invalidData (ascii "project key does not match project path"))
  let domains ← ofInput (readDomains dir.allow)
  let loopback ← ofInput (readLoopbackAuthorities dir.loopback)
  return { key := dir.key, path := dir.path, domains, loopback }

def projects [Host] (dirs : List ProjectDir) : StoreM (List PolicyProject) := do
  let projects ← dirs.mapM listedProject
  return projects.mergeSort fun a b => bytesLe a.path b.path

/-- The layers of a run, in the order in which they are inspected. -/
def activeRun [Host] (dir : RunDir) (global : List PolicyName)
    (loopback : List LoopbackAuthority) (projects : List PolicyProject) : StoreM ActiveRun := do
  let harness ← liftM (readTrimmed dir.harness (ascii "run harness"))
  let modeContents ← present (dir.mode.bind ModeFile.contents)
  let mode ← liftM (readTrimmed modeContents (ascii "run mode"))
  if !([ascii "enforce", ascii "report", ascii "open"].contains mode) then
    throw (.invalidData (ascii "invalid run mode"))
  let projectKey ← liftM (readTrimmed dir.projectKey (ascii "run project key"))
  if Host.keyForBytes dir.projectPath ≠ projectKey then
    throw (.invalidData (ascii "run project key does not match project path"))
  match projects.find? fun project => project.key == projectKey with
  | none => throw (.invalidData (ascii "run project policy is missing"))
  | some project =>
    if project.path ≠ dir.projectPath then
      throw (.invalidData (ascii "run project path does not match project policy"))
    let base ← ofInput (readDomains dir.base)
    let harnessDomains ← ofInput (readDomains dir.harnessAllow)
    let run ← ofInput (readDomains dir.run)
    let runLoopback ← ofInput (readLoopbackAuthorities dir.loopback)
    let effective ← ofInput <| resolveLayers
      [(base.map PolicyName.text, .base), (harnessDomains.map PolicyName.text, .harness harness),
        (global.map PolicyName.text, .global),
        (project.domains.map PolicyName.text, .project dir.projectPath),
        (run.map PolicyName.text, .run dir.id)]
    let effectiveLoopback := resolveLoopbackLayers
      [(loopback, .global), (project.loopback, .project dir.projectPath), (runLoopback, .run dir.id)]
    return {
      id := dir.id
      harness
      projectKey
      projectPath := dir.projectPath
      mode
      effective
      effectiveLoopback }

def snapshotLocked [Host] : StoreM PolicySnapshot := do
  reapRuns
  let store ← get
  let global ← ofInput (readDomains (← present store.global))
  let loopback ← ofInput (readLoopbackAuthorities (← present store.globalLoopback))
  let projects ← projects store.projects
  let runs ← store.runs.mapM fun dir => activeRun dir global loopback projects
  return { global, loopback, projects, runs := runs.mergeSort fun a b => bytesLe a.id b.id }

/-! ## Operations -/

/-- Creates the global files that are not there. -/
def ensure : StoreM Unit :=
  modify fun store =>
    { store with
      global := some (store.global.getD [])
      globalLoopback := some (store.globalLoopback.getD [])
      log := some (store.log.getD []) }

def locked {α : Type} (f : StoreM α) : StoreM α := do
  ensure
  f

/-- Replaces a file as a whole, or leaves it as it is. `write` is the store with the new contents. -/
def writeAtomic [Host] (path contents : Bytes) (write : StoreM Unit) : StoreM Unit :=
  match Host.replaceError path contents with
  | some error => throw (.io error)
  | none => write

def snapshot [Host] : StoreM PolicySnapshot := locked snapshotLocked

/-- The directory of a project, which is created when it is not there. -/
def projectFiles [Host] (path : Bytes) : StoreM ProjectDir := do
  let store ← get
  match hfind : store.projects.find? fun dir => dir.key == Host.keyForBytes path with
  | some dir =>
    if dir.path ≠ path then throw (.alreadyExists (ascii "project key collision"))
    return dir
  | none =>
    let dir : ProjectDir :=
      { key := Host.keyForBytes path, path, allow := [], loopback := [] }
    set (store.addProject dir hfind)
    return dir

def normalizeBatch [Host] (add remove : List Bytes) :
    Except InputError (List PolicyName × List PolicyName) := do
  let add ← add.mapM normalizeDomain
  let remove ← remove.mapM normalizeDomain
  return (add, remove)

def normalizeLoopbackBatch (add remove : List Bytes) :
    Except InputError (List LoopbackAuthority × List LoopbackAuthority) := do
  let add ← normalizeLoopbackAuthorities add
  let remove ← remove.mapM parseAuthority
  return (add, remove)

/-- The files of a project. -/
def projectPath (key file : Bytes) : Bytes := ascii "projects/" ++ key ++ ascii "/" ++ file

def writeGlobal [Host] (contents : Bytes) : StoreM Unit :=
  writeAtomic (ascii "allow.local") contents <|
    modify fun store => { store with global := some contents }

def writeGlobalLoopback [Host] (contents : Bytes) : StoreM Unit :=
  writeAtomic (ascii "loopback.allow") contents <|
    modify fun store => { store with globalLoopback := some contents }

def writeProject [Host] (key contents : Bytes) : StoreM Unit :=
  writeAtomic (projectPath key (ascii "allow.local")) contents <|
    modify fun store => store.setProject key ({ · with allow := contents }) fun _ => rfl

def writeProjectLoopback [Host] (key contents : Bytes) : StoreM Unit :=
  writeAtomic (projectPath key (ascii "loopback.allow")) contents <|
    modify fun store => store.setProject key ({ · with loopback := contents }) fun _ => rfl

def mutateGlobal [Host] (add remove : List Bytes) : StoreM Unit := do
  let (add, remove) ← ofInput (normalizeBatch add remove)
  locked do
    writeGlobal (← ofInput (mutateFile (← present (← get).global) add remove))

def mutateProject [Host] (project : Bytes) (add remove : List Bytes) : StoreM Unit := do
  let (add, remove) ← ofInput (normalizeBatch add remove)
  locked do
    let dir ← projectFiles project
    writeProject dir.key (← ofInput (mutateFile dir.allow add remove))

def mutateLoopbackGlobal [Host] (add remove : List Bytes) : StoreM Unit := do
  let (add, remove) ← ofInput (normalizeLoopbackBatch add remove)
  locked do
    writeGlobalLoopback <|
      ← ofInput (mutateLoopbackFile (← present (← get).globalLoopback) add remove)

def mutateLoopbackProject [Host] (project : Bytes) (add remove : List Bytes) : StoreM Unit := do
  let (add, remove) ← ofInput (normalizeLoopbackBatch add remove)
  locked do
    let dir ← projectFiles project
    writeProjectLoopback dir.key (← ofInput (mutateLoopbackFile dir.loopback add remove))

def baseAllowlist : List Bytes :=
  [ascii "github.com", ascii "githubusercontent.com", ascii "registry.npmjs.org", ascii "pypi.org",
    ascii "files.pythonhosted.org", ascii "astral.sh"]

/-- Two hexadecimal digits in upper case. -/
def hexDigits (byte : UInt8) : Bytes :=
  let digit (d : ℕ) : UInt8 := if d < 10 then .ofNat (48 + d) else .ofNat (55 + d)
  [digit (byte.toNat / 16), digit (byte.toNat % 16)]

/-- A path between double quotes, in printable characters. -/
def quotePathBytes (path : Bytes) : Bytes :=
  34 :: (path.flatMap fun byte =>
    if byte = 34 then [92, 34]
    else if byte = 92 then [92, 92]
    else if 0x20 ≤ byte && byte ≤ 0x7E then [byte]
    else 92 :: 120 :: hexDigits byte) ++ [34]

/-- What a denial says about one entry: the other layers that still grant it. -/
structure DenyEntry (α : Type) where
  entry : α
  sources : List Bytes

/-- The scope of a denial, the entries it did not find there, or else the ones it removed. -/
structure DenyReport (α : Type) where
  selected : Bytes
  missing : List (DenyEntry α)
  remaining : List (DenyEntry α)

/-- The stored project of an identity in a snapshot. -/
def storedProject [Host] (snapshot : PolicySnapshot) (path : Bytes) : Option PolicyProject :=
  snapshot.projects.find? fun entry => entry.key == Host.keyForBytes path && entry.path == path

def scopeLabel (project : Option Bytes) : Bytes :=
  match project with
  | none => ascii "global"
  | some path => ascii "project:" ++ quotePathBytes path

/-- The labels of the projects and runs that grant an entry, as far as the scope reaches. -/
def granting [Host] {α : Type} [DecidableEq α] (snapshot : PolicySnapshot) (project : Option Bytes)
    (entry : α) (ofProject : PolicyProject → List α) (ofRun : ActiveRun → List (Resolved α)) :
    List Bytes :=
  let projects := if project.isNone then
      (snapshot.projects.filter (entry ∈ ofProject ·)).map fun p =>
        ascii "project:" ++ quotePathBytes p.path
    else []
  let runs := snapshot.runs.filter fun run =>
    project.all fun path => Host.keyForBytes path == run.projectKey
  projects ++ runs.flatMap fun run =>
    match (ofRun run).find? fun resolved => decide (resolved.entry = entry) with
    | some resolved => resolved.sources.filterMap fun
      | .run id => some (ascii "run:" ++ id)
      | _ => none
    | none => []

def otherSources [Host] (snapshot : PolicySnapshot) (project : Option Bytes) (domain : PolicyName)
    (selectedLabel : Bytes) : List Bytes :=
  let base := if domain.text ∈ baseAllowlist then [ascii "base"] else []
  let harnesses := (Host.harnesses.filter fun harness => harness.2.contains domain.text).map
    fun harness => ascii "harness:" ++ harness.1
  let global := if domain ∈ snapshot.global then [ascii "global"] else []
  ((base ++ harnesses ++ global ++ granting snapshot project domain PolicyProject.domains
    ActiveRun.effective).filter (· ≠ selectedLabel)).foldl pushNew []

def otherLoopbackSources [Host] (snapshot : PolicySnapshot) (project : Option Bytes)
    (authority : LoopbackAuthority) (selectedLabel : Bytes) : List Bytes :=
  let global := if authority ∈ snapshot.loopback then [ascii "global"] else []
  ((global ++ granting snapshot project authority PolicyProject.loopback
    ActiveRun.effectiveLoopback).filter (· ≠ selectedLabel)).foldl pushNew []

/-- Removes a whole batch, only when every entry of it is present. `write` stores what is retained,
and `after` is the snapshot with it. -/
def denyEntries {α : Type} [DecidableEq α] (project : Option Bytes) (snapshot : PolicySnapshot)
    (selected entries : List α) (sources : PolicySnapshot → α → Bytes → List Bytes)
    (after : List α → PolicySnapshot) (write : List α → StoreM Unit) : StoreM (DenyReport α) := do
  let label := scopeLabel project
  let missing := entries.filter (· ∉ selected)
  if !missing.isEmpty then
    return {
      selected := label
      missing := missing.map fun entry => ⟨entry, sources snapshot entry label⟩
      remaining := [] }
  let retained := selected.filter (· ∉ entries)
  write retained
  return {
    selected := label
    missing := []
    remaining := entries.map fun entry => ⟨entry, sources (after retained) entry []⟩ }

/-- The snapshot with one project changed. -/
def PolicySnapshot.setProject [Host] (snapshot : PolicySnapshot) (path : Bytes)
    (f : PolicyProject → PolicyProject) : PolicySnapshot :=
  { snapshot with
    projects := snapshot.projects.map fun p => if p.key = Host.keyForBytes path then f p else p }

/-- A project from which nothing is missing is stored; an empty batch breaks this. -/
def assertStored [Host] (snapshot : PolicySnapshot) (path : Bytes) : StoreM Unit :=
  if (storedProject snapshot path).isNone then
    throw (.assertion (ascii "a nonempty selected policy must have a file"))
  else return ()

def deny [Host] (project : Option Bytes) (domains : List Bytes) :
    StoreM (DenyReport PolicyName) := do
  let domains ← ofInput (normalizeDomains domains)
  locked do
    let snapshot ← snapshotLocked
    let sources := fun snapshot domain label => otherSources snapshot project domain label
    match project with
    | none =>
      let selected ← ofInput (readDomains (← present (← get).global))
      denyEntries project snapshot selected domains sources
        (fun retained => { snapshot with global := retained })
        fun retained => writeGlobal (domainsText retained)
    | some path =>
      let selected := ((storedProject snapshot path).map PolicyProject.domains).getD []
      denyEntries project snapshot selected domains sources
        (fun retained => snapshot.setProject path fun p => { p with domains := retained })
        fun retained => do
          assertStored snapshot path
          writeProject (Host.keyForBytes path) (domainsText retained)

def denyLoopback [Host] (project : Option Bytes) (authorities : List Bytes) :
    StoreM (DenyReport LoopbackAuthority) := do
  let authorities ← ofInput (normalizeLoopbackAuthorities authorities)
  locked do
    let snapshot ← snapshotLocked
    let sources := fun snapshot authority label =>
      otherLoopbackSources snapshot project authority label
    match project with
    | none =>
      denyEntries project snapshot snapshot.loopback authorities sources
        (fun retained => { snapshot with loopback := retained })
        fun retained => writeGlobalLoopback (loopbackText retained)
    | some path =>
      let selected := ((storedProject snapshot path).map PolicyProject.loopback).getD []
      denyEntries project snapshot selected authorities sources
        (fun retained => snapshot.setProject path fun p => { p with loopback := retained })
        fun retained => do
          assertStored snapshot path
          writeProjectLoopback (Host.keyForBytes path) (loopbackText retained)

/-- Empties the denial log when no run is left. -/
def resetLogIfIdle : StoreM Unit :=
  modify fun store => if store.runs.isEmpty then { store with log := some [] } else store

/-- A mode file that may be replaced: a regular file that everyone may read and its owner write. -/
def ModeFile.valid (file : ModeFile) : Bool := file.regular && file.permissions % 0o1000 == 0o644

def modeFile (mode : Proxy.Mode) : ModeFile :=
  { regular := true, permissions := 0o644, contents := some (mode.asStr ++ [10]) }

/-- Publishes a run. `id` is the name made from the process and the clock. -/
def publishRun [Host] (id harness project : Bytes)
    (harnessDomains runDomains runLoopback : List Bytes) (mode : Proxy.Mode) : StoreM Unit := do
  let harnessDomains ← ofInput (normalizeDomains harnessDomains)
  let runDomains ← ofInput (normalizeDomains runDomains)
  let runLoopback ← ofInput (normalizeLoopbackAuthorities runLoopback)
  locked do
    reapRuns
    discard (projectFiles project)
    resetLogIfIdle
    let base ← ofInput (writeDomains baseAllowlist)
    let harnessAllow ← ofInput (writeDomains (harnessDomains.map PolicyName.text))
    let run ← ofInput (writeDomains (runDomains.map PolicyName.text))
    let dir : RunDir :=
      { id
        leased := true
        harness
        projectKey := Host.keyForBytes project
        projectPath := project
        base
        harnessAllow
        run
        loopback := loopbackText runLoopback
        mode := some (modeFile mode) }
    if (← get).runs.any (·.id == id) then throw (.alreadyExists id)
    modify fun store => { store with runs := store.runs ++ [dir] }

/-- The runs whose mode file is there, all of them valid. -/
def validModes : List RunDir → Except StoreError (List RunDir)
  | [] => .ok []
  | dir :: dirs =>
    match dir.mode with
    | none => validModes dirs
    | some file =>
      if !file.valid then .error (.invalidData (ascii "run mode must be a regular 0644 file"))
      else (validModes dirs).map (dir :: ·)

/-- Replaces the mode files of runs in order; a run that has gone is passed over. -/
def writeModes [Host] (mode : Proxy.Mode) : List RunDir → StoreM ℕ
  | [] => return 0
  | dir :: dirs =>
    match Host.replaceError (ascii "runs/" ++ dir.id ++ ascii "/mode") (mode.asStr ++ [10]) with
    | some .notFound => writeModes mode dirs
    | some error => throw (.io error)
    | none => do
      modify fun store =>
        { store with runs := store.runs.map fun run =>
            if run.id = dir.id then { run with mode := some (modeFile mode) } else run }
      return (← writeModes mode dirs) + 1

/-- Sets the mode of every published run. -/
def setActiveMode [Host] (mode : Proxy.Mode) : StoreM ℕ :=
  locked do
    reapRuns
    let dirs ← liftM (validModes ((← get).runs.mergeSort fun a b => bytesLe a.id b.id))
    writeModes mode dirs

/-- Removes a run at the end of its process. -/
def retire (id : Bytes) : StoreM Unit :=
  modify fun store => { store with runs := store.runs.filter (·.id ≠ id) }

end Vhrn.Cli
