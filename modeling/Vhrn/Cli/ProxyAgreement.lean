import Vhrn.Cli.StoreRuns

/-!
# Policy files mean the same to both sides

The command line writes the policy files and the proxy reads them, each with validators of its own. A
file of shared entries (`SharedEntries`) is read to the same set by both, and by
`written_storeAfter` every file of a store is one. So the layers of a published run grant in the proxy
exactly what the command line resolves (`policy_files_agree`).
-/

namespace Vhrn

open Proxy (unlines)

/-- A text of lines is split into them again. -/
theorem splitOn_unlines {ls : List Bytes} (h : ∀ l ∈ ls, (10 : UInt8) ∉ l) :
    (unlines ls).splitOn 10 = ls ++ [[]] := by
  induction ls with
  | nil => rfl
  | cons l ls ih =>
    rw [List.forall_mem_cons] at h
    have hl : l.splitOn 10 = [l] := by
      have hone : ([10].intercalate [l]).splitOn 10 = [l] :=
        List.splitOn_intercalate 10 (by simpa using h.1) (by simp)
      simpa using hone
    have heq : unlines (l :: ls) = l ++ 10 :: unlines ls := by simp [unlines]
    rw [heq, List.splitOn_append_cons_self, hl, ih h.2]
    rfl

theorem lines_unlines {ls : List Bytes} (h : ∀ l ∈ ls, (10 : UInt8) ∉ l ∧ (13 : UInt8) ∉ l) :
    lines (unlines ls) = ls := by
  have hcr : ∀ l ∈ ls, (stripSuffix [13] l).getD l = l := by
    intro l hl
    cases hs : stripSuffix [13] l with
    | none => rfl
    | some r => exact absurd (by rw [stripSuffix_eq_some.mp hs]; simp) (h l hl).2
  rw [lines, splitOn_unlines fun l hl => (h l hl).1]
  simp [List.map_congr_left hcr]

end Vhrn

namespace Vhrn.Cli

open Proxy (PolicyFile PolicyEntry unlines strictLines)

/-! ## Files of shared entries -/

/-- An octet that lines are made of. -/
def lineByte (b : UInt8) : Bool := b < 128 && b != 10 && b != 13

/-- Entries whose texts both sides read back, each to its own value. -/
structure SharedEntries {α ε : Type} (text : α → Bytes) (normalize : Bytes → Except InputError α)
    (parseLine : Bytes → Option ε) (toProxy : α → ε) : Prop where
  byte : ∀ a, ∀ b ∈ text a, lineByte b = true
  ne_nil : ∀ a, text a ≠ []
  normalized : ∀ a, normalize (text a) = .ok a
  parsed : ∀ a, parseLine (text a) = some (toProxy a)

/-- What the command line reports for a file is what the proxy takes from it. -/
def SameEntries {α ε : Type} (read : Bytes → Except InputError (List α))
    (parse : Bytes → Option (List ε)) (toProxy : α → ε) (contents : Bytes) : Prop :=
  ∃ reported, read contents = .ok reported ∧
    (∃ entries, parse contents = some entries ∧ {e | e ∈ entries} = toProxy '' {a | a ∈ reported}) ∧
    ∀ file : PolicyFile, file.Holds contents →
      file.layer parse = some (toProxy '' {a | a ∈ reported})

section

variable {α ε : Type} {text : α → Bytes} {normalize : Bytes → Except InputError α}
  {parseLine : Bytes → Option ε} {toProxy : α → ε}
  (hs : SharedEntries text normalize parseLine toProxy)

include hs

theorem SharedEntries.not_mem (a : α) : (10 : UInt8) ∉ text a ∧ (13 : UInt8) ∉ text a :=
  ⟨fun h => absurd (hs.byte a 10 h) (by decide), fun h => absurd (hs.byte a 13 h) (by decide)⟩

theorem SharedEntries.isUtf8 (as : List α) : isUtf8 (unlines (as.map text)) = true := by
  refine isUtf8_of_isAscii (List.all_eq_true.mpr fun b hb => ?_)
  rw [unlines, List.mem_flatten] at hb
  simp only [List.mem_map, exists_exists_and_eq_and] at hb
  obtain ⟨a, -, hb⟩ := hb
  rcases List.mem_append.mp hb with hb | hb
  · have hbyte := hs.byte a b hb
    simp only [lineByte, Bool.and_eq_true] at hbyte
    exact hbyte.1.1
  · obtain rfl := List.mem_singleton.mp hb
    decide

theorem SharedEntries.readLines (as : List α) :
    readLines (unlines (as.map text)) = .ok (as.map text) := by
  unfold Cli.readLines
  rw [fromUtf8, if_pos (hs.isUtf8 as)]
  refine congrArg Except.ok (lines_unlines ?_)
  rintro l hl
  obtain ⟨a, -, rfl⟩ := List.mem_map.mp hl
  exact hs.not_mem a

theorem SharedEntries.mapM_normalize (as : List α) : (as.map text).mapM normalize = .ok as := by
  rw [mapM_eq_ok, List.forall₂_map_left_iff]
  exact List.forall₂_same.mpr fun a _ => hs.normalized a

theorem SharedEntries.normalizeAll [DecidableEq α] (as : List α) :
    normalizeAll normalize (as.map text) = .ok (as.foldl pushNew []) := by
  rw [Cli.normalizeAll, hs.mapM_normalize]
  rfl

theorem SharedEntries.strictLines (as : List α) :
    strictLines (unlines (as.map text)) = some (as.map text) := by
  refine Proxy.strictLines_unlines ?_ ?_
  all_goals
    intro l hl
    obtain ⟨a, -, rfl⟩ := List.mem_map.mp hl
  · exact hs.ne_nil a
  · exact (hs.not_mem a).1

theorem SharedEntries.mapM_parseLine (as : List α) :
    (as.map text).mapM parseLine = some (as.map toProxy) := by
  induction as with
  | nil => rfl
  | cons a as ih =>
    rw [List.map_cons, List.mapM_cons, hs.parsed, ih]
    rfl

/-- **A file of shared entries holds the same entries for both sides.** -/
theorem SharedEntries.sameEntries [DecidableEq α] {read : Bytes → Except InputError (List α)}
    {parse : Bytes → Option (List ε)}
    (hread : ∀ contents, read contents = Cli.readLines contents >>= Cli.normalizeAll normalize)
    (hparse : ∀ contents, parse contents =
      (Proxy.strictLines contents).bind fun lines => lines.mapM parseLine) (as : List α) :
    SameEntries read parse toProxy (unlines (as.map text)) := by
  have hset : {e | e ∈ as.map toProxy} = toProxy '' {a | a ∈ as.foldl pushNew []} := by
    ext e
    simp [mem_foldl_pushNew]
  have hp : parse (unlines (as.map text)) = some (as.map toProxy) := by
    rw [hparse, hs.strictLines, Option.bind_some, hs.mapM_parseLine]
  refine ⟨as.foldl pushNew [], ?_, ⟨_, hp, hset⟩, fun file hf => ?_⟩
  · rw [hread, hs.readLines]
    exact hs.normalizeAll as
  · exact Proxy.PolicyFile.layer_eq_some.mpr ⟨_, _, hf, hp, hset.symm⟩

end

section

variable {α ε : Type} {read : Bytes → Except InputError (List α)}
  {parse : Bytes → Option (List ε)} {toProxy : α → ε}

theorem SameEntries.layer {contents : Bytes} (h : SameEntries read parse toProxy contents)
    {reported : List α} (hr : read contents = .ok reported) {file : PolicyFile}
    (hf : file.Holds contents) : file.layer parse = some (toProxy '' {a | a ∈ reported}) := by
  obtain ⟨reported', hr', -, hlayer⟩ := h
  obtain rfl := Except.ok.inj (hr.symm.trans hr')
  exact hlayer file hf

/-- **The proxy loads the union of what the command line reports for the files.** -/
theorem union_of_sameEntries {files : List PolicyFile} {contents : List Bytes}
    {reported : List (List α)} (hf : List.Forall₂ PolicyFile.Holds files contents)
    (hr : List.Forall₂ (fun c r => SameEntries read parse toProxy c ∧ read c = .ok r) contents
      reported) :
    Layers.union (files.map (PolicyFile.layer parse)) =
      some (toProxy '' {a | ∃ entries ∈ reported, a ∈ entries}) := by
  have hmap : files.map (PolicyFile.layer parse) =
      (reported.map fun entries => toProxy '' {a | a ∈ entries}).map some := by
    induction hf generalizing reported with
    | nil =>
      cases hr
      rfl
    | cons hfile _ ih =>
      obtain ⟨r, rs, ⟨hsame, hread⟩, hrest, rfl⟩ := List.forall₂_cons_left_iff.mp hr
      rw [List.map_cons, ih hrest, hsame.layer hread hfile]
      rfl
  rw [hmap, Layers.union_map_some]
  refine congrArg some (Set.ext fun e => ?_)
  simp only [List.mem_map, exists_exists_and_eq_and, Set.mem_ofPred_eq, Set.mem_image]
  constructor
  · rintro ⟨entries, he, a, ha, rfl⟩
    exact ⟨a, ⟨entries, he, ha⟩, rfl⟩
  · rintro ⟨a, ⟨entries, he, ha⟩, rfl⟩
    exact ⟨entries, he, a, ha, rfl⟩

end

/-! ## Domains and loopback authorities -/

/-- The proxy's entry of a name. -/
def PolicyName.entry (name : PolicyName) : PolicyEntry :=
  (PolicyEntry.fromStr name.text).get (by rw [PolicyEntry.fromStr_isSome, name.valid])

theorem PolicyName.fromStr_text (name : PolicyName) :
    PolicyEntry.fromStr name.text = some name.entry := (Option.some_get _).symm

theorem PolicyName.text_entry (name : PolicyName) : name.entry.text = name.text :=
  PolicyEntry.text_fromStr name.fromStr_text

theorem sharedDomains [Host] :
    SharedEntries PolicyName.text normalizeDomain PolicyEntry.fromStr PolicyName.entry where
  byte name b hb := by
    have hbyte (b : UInt8) : Proxy.validPolicyByte b = true → lineByte b = true := by
      revert b; exact forall_byte (by decide +kernel)
    exact hbyte b (Proxy.validPolicyDomain_byte name.valid hb)
  ne_nil name := Proxy.validPolicyDomain_ne_nil name.valid
  normalized name := normalizeDomain_text name
  parsed name := name.fromStr_text

theorem parseAuthority_display (authority : LoopbackAuthority) :
    parseAuthority authority.display = .ok authority := by
  rw [parseAuthority, authority.parse_display]

theorem parseLocalLine_display (authority : LoopbackAuthority) :
    Proxy.parseLocalLine authority.display = some authority.toProxy :=
  Proxy.parseLocalLine_eq_some.mpr authority.display_toProxy.symm

theorem sharedLoopback : SharedEntries LoopbackAuthority.display parseAuthority
    Proxy.parseLocalLine LoopbackAuthority.toProxy where
  byte authority b hb := by
    have hbyte (b : UInt8) : Proxy.isAuthorityByte b = true → lineByte b = true := by
      revert b; exact forall_byte (by decide +kernel)
    rw [← authority.display_toProxy] at hb
    exact hbyte b (Proxy.LoopbackAuthority.display_byte hb)
  ne_nil authority := by
    rw [← authority.display_toProxy]
    exact Proxy.LoopbackAuthority.display_ne_nil _
  normalized authority := parseAuthority_display authority
  parsed authority := parseLocalLine_display authority

/-- What both sides read from a domain file. -/
abbrev SameDomains [Host] : Bytes → Prop :=
  SameEntries readDomains Proxy.parseDomainLayer PolicyName.entry

abbrev SameLoopback : Bytes → Prop :=
  SameEntries readLoopbackAuthorities Proxy.parseLocalLayer LoopbackAuthority.toProxy

theorem DomainFile.same [Host] {contents : Bytes} (h : DomainFile contents) :
    SameDomains contents := by
  obtain ⟨names, rfl⟩ := h
  exact sharedDomains.sameEntries (fun _ => rfl) Proxy.parseDomainLayer_lines names

theorem LoopbackFile.same {contents : Bytes} (h : LoopbackFile contents) :
    SameLoopback contents := by
  obtain ⟨authorities, rfl⟩ := h
  exact sharedLoopback.sameEntries (fun _ => rfl) Proxy.parseLocalLayer_lines authorities

/-! ## Resolved layers -/

section

variable {α : Type} [DecidableEq α]

theorem mem_addSource {source : LayerSource} {entry e : α} {output : List (Resolved α)} :
    (∃ r ∈ addSource source entry output, r.entry = e) ↔
      (∃ r ∈ output, r.entry = e) ∨ e = entry := by
  induction output with
  | nil => simp [addSource, eq_comm]
  | cons resolved output ih =>
    unfold addSource
    split
    · rename_i h
      subst h
      have hcomm : e = resolved.entry ↔ resolved.entry = e := eq_comm
      simp only [List.exists_mem_cons_iff, hcomm]
      exact ⟨.inl, fun h => h.elim id .inl⟩
    · rw [List.exists_mem_cons_iff, ih, List.exists_mem_cons_iff, or_assoc]

/-- **The effective entries are those of the layers.** -/
theorem mem_resolveEntries {layers : List (List α × LayerSource)} {e : α} :
    (∃ r ∈ resolveEntries layers, r.entry = e) ↔ ∃ layer ∈ layers, e ∈ layer.1 := by
  have hlayer (source : LayerSource) (entries : List α) (output : List (Resolved α)) :
      (∃ r ∈ entries.foldl (fun output entry => addSource source entry output) output,
        r.entry = e) ↔ (∃ r ∈ output, r.entry = e) ∨ e ∈ entries := by
    induction entries generalizing output with
    | nil => simp
    | cons entry entries ih => rw [List.foldl_cons, ih, mem_addSource, List.mem_cons, or_assoc]
  have hall (output : List (Resolved α)) :
      (∃ r ∈ layers.foldl (fun output layer =>
          layer.1.foldl (fun output entry => addSource layer.2 entry output) output) output,
        r.entry = e) ↔ (∃ r ∈ output, r.entry = e) ∨ ∃ layer ∈ layers, e ∈ layer.1 := by
    induction layers generalizing output with
    | nil => simp
    | cons layer layers ih =>
      rw [List.foldl_cons, ih, hlayer, List.exists_mem_cons_iff, or_assoc]
  simpa [resolveEntries] using hall []

end

theorem resolveLayers_text [Host] (layers : List (List PolicyName × LayerSource)) :
    resolveLayers (layers.map fun layer => (layer.1.map PolicyName.text, layer.2)) =
      .ok (resolveEntries layers) := by
  have hmap : (layers.map fun layer => (layer.1.map PolicyName.text, layer.2)).mapM
      (fun layer => do return (← layer.1.mapM normalizeDomain, layer.2)) =
      (.ok layers : Except InputError _) := by
    rw [mapM_eq_ok, List.forall₂_map_left_iff]
    refine List.forall₂_same.mpr fun layer _ => ?_
    rw [sharedDomains.mapM_normalize]
    rfl
  rw [resolveLayers, hmap]
  rfl

/-! ## What a snapshot reports -/

theorem ofInput_eq_ok {α : Type} {x : Except InputError α} {s s' : Store} {a : α} :
    (ofInput x).exec s = (.ok a, s') ↔ x = .ok a ∧ s' = s := by
  rw [ofInput, exec_liftExcept_eq_ok]
  cases x with
  | error e => simp [Except.mapError]
  | ok b => simp [Except.mapError]

theorem present_eq_ok {contents : Option Bytes} {s s' : Store} {c : Bytes} :
    (present contents).exec s = (.ok c, s') ↔ contents = some c ∧ s' = s := by
  cases contents with
  | none =>
    constructor
    · rintro ⟨⟩
    · rintro ⟨⟨⟩, -⟩
  | some b =>
    constructor
    · rintro ⟨⟩
      exact ⟨rfl, rfl⟩
    · rintro ⟨⟨⟩, rfl⟩
      rfl

theorem readTrimmed_eq_ok {contents label value : Bytes}
    (h : readTrimmed contents label = .ok value) : value = trim contents := by
  unfold readTrimmed at h
  split at h
  · cases h
  · rename_i text htext
    obtain rfl := Option.some.inj (Option.ite_none_right_eq_some.mp htext).2
    simp only at h
    split at h
    · cases h
    · exact (Except.ok.inj h).symm

/-- A check that passed. -/
theorem exec_check {α : Type} {c : Prop} [Decidable c] {e : StoreError} {m : StoreM α}
    {s s' : Store} {a : α}
    (h : (if c then (do throw e; m) else m : StoreM α).exec s = (.ok a, s')) :
    ¬ c ∧ m.exec s = (.ok a, s') := by
  split at h
  · obtain ⟨_, _, ⟨⟩, -⟩ := exec_bind_eq_ok.mp h
  · exact ⟨‹_›, h⟩

section

variable [Host]

/-- What is read from the files of a listed run, and what is made of it. -/
structure RunRead (dir : RunDir) (global : List PolicyName) (loopback : List LoopbackAuthority)
    (project : PolicyProject) (run : ActiveRun) (bases allowed granted : List PolicyName)
    (authorities : List LoopbackAuthority) : Prop where
  id : run.id = dir.id
  key : readTrimmed dir.projectKey (ascii "run project key") = .ok run.projectKey
  projectKey : project.key = run.projectKey
  path : project.path = dir.projectPath
  base : readDomains dir.base = .ok bases
  harnessAllow : readDomains dir.harnessAllow = .ok allowed
  runAllow : readDomains dir.run = .ok granted
  runLoopback : readLoopbackAuthorities dir.loopback = .ok authorities
  effective : run.effective = resolveEntries [(bases, .base), (allowed, .harness run.harness),
    (global, .global), (project.domains, .project dir.projectPath), (granted, .run dir.id)]
  effectiveLoopback : run.effectiveLoopback = resolveLoopbackLayers [(loopback, .global),
    (project.loopback, .project dir.projectPath), (authorities, .run dir.id)]

theorem activeRun_eq_ok {dir : RunDir} {global : List PolicyName}
    {loopback : List LoopbackAuthority} {projects : List PolicyProject} {run : ActiveRun}
    {s s' : Store} (h : (activeRun dir global loopback projects).exec s = (.ok run, s')) :
    ∃ project ∈ projects, ∃ bases allowed granted authorities,
      RunRead dir global loopback project run bases allowed granted authorities := by
  unfold activeRun at h
  rw [exec_bind_eq_ok] at h
  obtain ⟨harnessName, s₁, -, h⟩ := h
  rw [exec_bind_eq_ok] at h
  obtain ⟨contents, s₂, -, h⟩ := h
  rw [exec_bind_eq_ok] at h
  obtain ⟨mode, s₃, -, h⟩ := h
  obtain ⟨-, h⟩ := exec_check h
  rw [exec_bind_eq_ok] at h
  obtain ⟨key, s₄, hkey, h⟩ := h
  obtain ⟨-, h⟩ := exec_check h
  split at h
  · cases h
  · rename_i project hfind
    obtain ⟨hpath, h⟩ := exec_check h
    simp only [exec_bind_eq_ok, ofInput_eq_ok] at h
    obtain ⟨base, _, ⟨hbase, -⟩, harness, _, ⟨hharness, -⟩, own, _, ⟨hown, -⟩, authorities, _,
      ⟨hloopback, -⟩, effective, _, ⟨heffective, -⟩, h⟩ := h
    obtain ⟨⟩ := h
    have hres := resolveLayers_text [(base, .base), (harness, .harness harnessName),
      (global, .global), (project.domains, .project dir.projectPath), (own, .run dir.id)]
    refine ⟨project, List.mem_of_find?_eq_some hfind, base, harness, own, authorities, rfl, ?_, ?_,
      not_not.mp hpath, hbase, hharness, hown, hloopback, ?_, rfl⟩
    · exact (exec_liftExcept_eq_ok.mp hkey).1
    · simpa using List.find?_some hfind
    · exact Except.ok.inj (heffective.symm.trans hres)

/-- How a listed run comes about from the files of its layers. -/
structure RunResolved (dir : RunDir) (global : List PolicyName) (loopback : List LoopbackAuthority)
    (project : PolicyProject) (run : ActiveRun) : Prop where
  id : run.id = dir.id
  projectKey : project.key = run.projectKey
  domains : ∃ base harness own, readDomains dir.base = .ok base ∧
    readDomains dir.harnessAllow = .ok harness ∧ readDomains dir.run = .ok own ∧
    ∀ name, (∃ r ∈ run.effective, r.entry = name) ↔
      ∃ layer ∈ [base, harness, global, project.domains, own], name ∈ layer
  authorities : ∃ own, readLoopbackAuthorities dir.loopback = .ok own ∧
    ∀ authority, (∃ r ∈ run.effectiveLoopback, r.entry = authority) ↔
      ∃ layer ∈ [loopback, project.loopback, own], authority ∈ layer

theorem runResolved_of_activeRun {dir : RunDir} {global : List PolicyName}
    {loopback : List LoopbackAuthority} {projects : List PolicyProject} {run : ActiveRun}
    {s s' : Store} (h : (activeRun dir global loopback projects).exec s = (.ok run, s')) :
    ∃ project ∈ projects, RunResolved dir global loopback project run := by
  obtain ⟨project, hproject, base, harness, own, authorities, hread⟩ := activeRun_eq_ok h
  refine ⟨project, hproject, hread.id, hread.projectKey, ?_, ?_⟩
  · refine ⟨base, harness, own, hread.base, hread.harnessAllow, hread.runAllow, fun name => ?_⟩
    rw [hread.effective, mem_resolveEntries]
    simp
  · refine ⟨authorities, hread.runLoopback, fun authority => ?_⟩
    rw [hread.effectiveLoopback, resolveLoopbackLayers, mem_resolveEntries]
    simp

theorem mem_projects {dirs : List ProjectDir} {found : List PolicyProject} {s s' : Store}
    (h : (projects dirs).exec s = (.ok found, s')) {project : PolicyProject}
    (hp : project ∈ found) : ∃ dir ∈ dirs, dir.key = project.key ∧
      readDomains dir.allow = .ok project.domains ∧
      readLoopbackAuthorities dir.loopback = .ok project.loopback := by
  unfold projects at h
  rw [exec_bind_eq_ok] at h
  obtain ⟨listed, s₁, hlisted, h⟩ := h
  obtain ⟨⟩ := h
  rw [List.mem_mergeSort] at hp
  obtain ⟨dir, hdir, hrun⟩ :=
    Keeps.exists_of_exec_mapM (fun _ => keeps_listedProject) hlisted hp
  obtain ⟨-, h⟩ := exec_check hrun
  simp only [exec_bind_eq_ok, ofInput_eq_ok] at h
  obtain ⟨domains, _, ⟨hdomains, -⟩, loopback, _, ⟨hloopback, -⟩, h⟩ := h
  obtain ⟨⟩ := h
  exact ⟨dir, hdir, rfl, hdomains, hloopback⟩

/-- The layer files that the proxy of a run is started with, in their order. -/
structure ProxyLayers (store : Store) (run : ActiveRun) where
  dir : RunDir
  project : ProjectDir
  global : Bytes
  loopback : Bytes
  mem_runs : dir ∈ store.runs
  id : dir.id = run.id
  mem_projects : project ∈ store.projects
  key : project.key = run.projectKey
  global_eq : store.global = some global
  loopback_eq : store.globalLoopback = some loopback

def ProxyLayers.allowlists {store : Store} {run : ActiveRun} (layers : ProxyLayers store run) :
    List Bytes :=
  [layers.dir.base, layers.dir.harnessAllow, layers.global, layers.project.allow, layers.dir.run]

def ProxyLayers.loopbackAllowlists {store : Store} {run : ActiveRun}
    (layers : ProxyLayers store run) : List Bytes :=
  [layers.loopback, layers.project.loopback, layers.dir.loopback]

theorem snapshotLocked_eq_ok {s s' : Store} {snap : PolicySnapshot}
    (h : snapshotLocked.exec s = (.ok snap, s')) :
    ∃ global loopback, s'.global = some global ∧ s'.globalLoopback = some loopback ∧
      readDomains global = .ok snap.global ∧ readLoopbackAuthorities loopback = .ok snap.loopback ∧
      (Cli.projects s'.projects).exec s' = (.ok snap.projects, s') ∧
      ∃ runs, snap.runs.Perm runs ∧ List.Forall₂ (fun dir run =>
        (activeRun dir snap.global snap.loopback snap.projects).exec s' = (.ok run, s'))
        s'.runs runs := by
  unfold snapshotLocked at h
  rw [exec_bind_eq_ok] at h
  obtain ⟨_, s₁, -, h⟩ := h
  rw [exec_bind_eq_ok] at h
  obtain ⟨store, s₂, hget, h⟩ := h
  obtain ⟨⟩ := hget
  simp only [exec_bind_eq_ok, ofInput_eq_ok, present_eq_ok] at h
  obtain ⟨global, _, ⟨hglobal, rfl⟩, domains, _, ⟨hdomains, rfl⟩, loopback, _, ⟨hloopback, rfl⟩,
    authorities, _, ⟨hauthorities, rfl⟩, projects, s₃, hprojects, runs, s₄, hruns, h⟩ := h
  obtain rfl := Keeps.eq_of_exec (fun _ => keeps_projects _) hprojects
  obtain rfl := Keeps.eq_of_exec (fun _ => Keeps.mapM (fun dir => keeps_activeRun dir _ _ _) _) hruns
  obtain ⟨⟩ := h
  refine ⟨global, loopback, hglobal, hloopback, hdomains, hauthorities, hprojects, runs,
    List.mergeSort_perm runs _, ?_⟩
  exact Keeps.forall₂_of_exec_mapM (fun _ dir => keeps_activeRun dir _ _ _) hruns

/-- What the proxy of a run loads from its layer files is what the command line resolves for the
run. -/
structure GrantsResolved {store : Store} {run : ActiveRun} (layers : ProxyLayers store run) :
    Prop where
  domains : ∀ files : List PolicyFile, List.Forall₂ PolicyFile.Holds files layers.allowlists →
    Proxy.publicGrant files =
      some (PolicyName.entry '' {name | ∃ r ∈ run.effective, r.entry = name})
  authorities : ∀ files : List.Vector PolicyFile 3,
    List.Forall₂ PolicyFile.Holds files.toList layers.loopbackAllowlists →
      Proxy.localGrant files = some
        (LoopbackAuthority.toProxy '' {a | ∃ r ∈ run.effectiveLoopback, r.entry = a})

theorem grantsResolved_of_snapshot {s s' : Store} {snap : PolicySnapshot} (hw : s'.Written)
    (h : snapshotLocked.exec s = (.ok snap, s')) {run : ActiveRun} (hrun : run ∈ snap.runs) :
    ∃ layers : ProxyLayers s' run, GrantsResolved layers := by
  obtain ⟨global, loopback, hglobal, hloopback, hdomains, hauthorities, hprojects, runs, hperm,
    hruns⟩ := snapshotLocked_eq_ok h
  obtain ⟨dir, hdir, hactive⟩ := exists_left_of_forall₂ hruns (hperm.mem_iff.mp hrun)
  obtain ⟨project, hproject, hres⟩ := runResolved_of_activeRun hactive
  obtain ⟨projectDir, hprojectDir, hkey, hpd, hpl⟩ := mem_projects hprojects hproject
  have hwp := hw.projects projectDir hprojectDir
  have hwr := hw.runs dir hdir
  refine ⟨⟨dir, projectDir, global, loopback, hdir, hres.id.symm, hprojectDir,
    hkey.trans hres.projectKey, hglobal, hloopback⟩, ?_, ?_⟩
  · intro files hfiles
    obtain ⟨base, harness, own, hbase, hharness, hown, heffective⟩ := hres.domains
    have hne : files ≠ [] := by
      rintro rfl
      cases hfiles
    rw [Proxy.publicGrant, if_neg hne]
    simp only [heffective]
    have hsame : List.Forall₂ (fun c names => SameDomains c ∧ readDomains c = .ok names)
        [dir.base, dir.harnessAllow, global, projectDir.allow, dir.run]
        [base, harness, snap.global, project.domains, own] :=
      .cons ⟨hwr.base.same, hbase⟩ <| .cons ⟨hwr.harnessAllow.same, hharness⟩ <|
        .cons ⟨(hw.global _ hglobal).same, hdomains⟩ <| .cons ⟨hwp.allow.same, hpd⟩ <|
        .cons ⟨hwr.run.same, hown⟩ .nil
    exact union_of_sameEntries hfiles hsame
  · intro files hfiles
    obtain ⟨own, hown, heffective⟩ := hres.authorities
    rw [Proxy.localGrant]
    simp only [heffective]
    have hsame : List.Forall₂
        (fun c authorities => SameLoopback c ∧ readLoopbackAuthorities c = .ok authorities)
        [loopback, projectDir.loopback, dir.loopback] [snap.loopback, project.loopback, own] :=
      .cons ⟨(hw.globalLoopback _ hloopback).same, hauthorities⟩ <|
        .cons ⟨hwp.loopback.same, hpl⟩ <| .cons ⟨hwr.loopback.same, hown⟩ .nil
    exact union_of_sameEntries hfiles hsame

/-! ## Agreement -/

/-- What the two sides of the policy store agree on. -/
structure FilesAgree (store : Store) : Prop where
  global : ∀ contents ∈ store.global, SameDomains contents
  globalLoopback : ∀ contents ∈ store.globalLoopback, SameLoopback contents
  projects : ∀ dir ∈ store.projects, SameDomains dir.allow ∧ SameLoopback dir.loopback
  runs : ∀ dir ∈ store.runs, SameDomains dir.base ∧ SameDomains dir.harnessAllow ∧
    SameDomains dir.run ∧ SameLoopback dir.loopback
  /-- Every run the command line lists is resolved to what its proxy loads. -/
  resolved : ∀ snap store', snapshot.exec store = (.ok snap, store') →
    ∀ run ∈ snap.runs, ∃ layers : ProxyLayers store' run, GrantsResolved layers
  /-- An entry the command line accepts is one the proxy accepts, with the same text. -/
  domainAccepted : ∀ input name, normalizeDomain input = .ok name →
    PolicyEntry.fromStr name.text = some name.entry ∧ name.entry.text = name.text
  authorityAccepted : ∀ input authority, parseAuthority input = .ok authority →
    Proxy.parseLocalLine authority.display = some authority.toProxy ∧
      authority.toProxy.display = authority.display

/-- **Policy files written by the command line mean the same to the proxy**, after any sequence of
operations from an empty store. -/
theorem policy_files_agree (ops : List Op) : FilesAgree (storeAfter ops) where
  global contents h := ((written_storeAfter ops).global contents h).same
  globalLoopback contents h := ((written_storeAfter ops).globalLoopback contents h).same
  projects dir h := by
    have hw := (written_storeAfter ops).projects dir h
    exact ⟨hw.allow.same, hw.loopback.same⟩
  runs dir h := by
    have hw := (written_storeAfter ops).runs dir h
    exact ⟨hw.base.same, hw.harnessAllow.same, hw.run.same, hw.loopback.same⟩
  resolved snap store' h run hrun := by
    have hw : store'.Written := by
      have hkeep := Op.snapshot.keeps (written_storeAfter ops)
      rwa [Op.run, h] at hkeep
    rw [snapshot, locked, exec_bind_eq_ok] at h
    obtain ⟨_, s₁, -, h⟩ := h
    exact grantsResolved_of_snapshot hw h hrun
  domainAccepted _ name _ := ⟨name.fromStr_text, name.text_entry⟩
  authorityAccepted _ authority _ := ⟨parseLocalLine_display authority, authority.display_toProxy⟩

end

end Vhrn.Cli
