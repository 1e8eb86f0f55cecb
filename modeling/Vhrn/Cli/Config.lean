import Vhrn.Cli.ToolsTag

/-!
# Tools of a project

The configuration has tools for every project and tools of single projects that replace them. A launch
resolves the configuration for its own project, while installing a harness prepares one image for each
distinct normalised profile. A profile is kept for the tools that were met first and collects the
projects that have the same tools (`getElem?_profilesOf`), so every project is in the profile of the
tools its launch resolves to (`profiles_agree`).
-/

namespace Vhrn.Cli

/-! ## The configuration -/

structure RunConfig where
  blockedDirs : Option (List Bytes)

/-- Extra tooling of an image. A list that is not set leaves the one below in force. -/
structure ToolsConfig where
  apt : Option (List Bytes)
  run : Option (List Bytes)

structure ResourcesConfig where
  memory : Option Bytes
  cpus : Option UInt32

/-- Resource values as they are written. -/
structure ParsedResourcesConfig where
  memory : Option Bytes
  cpus : Option ℤ

structure Config where
  run : RunConfig
  tools : ToolsConfig
  resources : ResourcesConfig

structure ProjectOverrides where
  tools : ToolsConfig
  resources : ParsedResourcesConfig

/-- The contents of the configuration file. -/
structure ConfigFile where
  run : RunConfig
  tools : ToolsConfig
  resources : ParsedResourcesConfig
  projects : Std.TreeMap Bytes ProjectOverrides

inductive ConfigError
  | relativeProject (key : Bytes)
  | dotComponents (key : Bytes)
  | cpusNotPositive
  | cpusTooLarge
  | memory
  deriving DecidableEq

def defaultConfig : Config where
  run := ⟨some [ascii "~", ascii "/"]⟩
  tools := ⟨none, none⟩
  resources := ⟨none, none⟩

/-- A field of `overrides` wins when it is set. -/
def mergeConfig (base overrides : Config) : Config where
  run := ⟨overrides.run.blockedDirs <|> base.run.blockedDirs⟩
  tools := ⟨overrides.tools.apt <|> base.tools.apt, overrides.tools.run <|> base.tools.run⟩
  resources := ⟨overrides.resources.memory <|> base.resources.memory,
    overrides.resources.cpus <|> base.resources.cpus⟩

def validateProjectKey (key : Bytes) : Except ConfigError Unit :=
  if key.head? ≠ some 47 then .error (.relativeProject key)
  else if (key.splitOn 47).any fun part => part == ascii "." || part == ascii ".." then
    .error (.dotComponents key)
  else .ok ()

def normalizeCpus : Option ℤ → Except ConfigError (Option UInt32)
  | none => .ok none
  | some cpus =>
    if cpus ≤ 0 then .error .cpusNotPositive
    else if cpus ≤ 4294967295 then .ok (some (.ofNat cpus.toNat))
    else .error .cpusTooLarge

/-- An amount with a unit, the amount spelled as it was. -/
def normalizeMemory (memory : Bytes) : Except ConfigError Bytes :=
  if eqIgnoreCase memory (ascii "engine") then .ok (ascii "engine")
  else if !isAscii memory || memory.length < 2 then .error .memory
  else
    let amount := memory.dropLast
    if amount.isEmpty || !amount.all Ascii.isDigit || !amount.any (· != 48) then .error .memory
    else match memory.getLast? with
      | none => .error .memory
      | some unit =>
        if unit = 109 || unit = 77 then .ok (amount ++ [109])
        else if unit = 103 || unit = 71 then .ok (amount ++ [103])
        else .error .memory

def normalizeConfig (cfg : Config) : Except ConfigError Config :=
  match cfg.resources.memory with
  | none => .ok cfg
  | some memory => do
    let memory ← normalizeMemory memory
    return { cfg with resources.memory := some memory }

/-- The configuration of a launch in a project. -/
def resolveConfig (file : ConfigFile) (project : Bytes) : Except ConfigError Config := do
  file.projects.keys.forM validateProjectKey
  let global : Config :=
    { run := file.run, tools := file.tools, resources := ⟨file.resources.memory, none⟩ }
  let merged := mergeConfig defaultConfig global
  let (cfg, cpus) := match file.projects[project]? with
    | none => (merged, file.resources.cpus)
    | some overrides =>
      ({ merged with
          tools := ⟨overrides.tools.apt <|> merged.tools.apt, overrides.tools.run <|> merged.tools.run⟩
          resources.memory := overrides.resources.memory <|> merged.resources.memory },
        overrides.resources.cpus <|> file.resources.cpus)
  let cpus ← normalizeCpus cpus
  normalizeConfig { cfg with resources.cpus := cpus }

/-- The tools that a launch looks for. -/
def Config.normalizedTools (cfg : Config) : NormalizedTools :=
  .new (cfg.tools.apt.getD []) (cfg.tools.run.getD [])

/-! ## Profiles -/

namespace NormalizedTools

instance : Ord NormalizedTools := ⟨compareLex (compareOn apt) (compareOn run)⟩

instance : Std.TransOrd NormalizedTools :=
  inferInstanceAs (Std.TransCmp (compareLex (compareOn apt) (compareOn run)))

instance : Std.LawfulEqOrd NormalizedTools where
  eq_of_compare {a b} h := by
    obtain ⟨hapt, hrun⟩ := compareLex_eq_eq.mp h
    exact ext (Std.LawfulEqCmp.compare_eq_iff_eq.mp hapt) (Std.LawfulEqCmp.compare_eq_iff_eq.mp hrun)

instance : DecidableEq NormalizedTools := fun a b =>
  decidable_of_iff (compare a b = .eq) Std.LawfulEqCmp.compare_eq_iff_eq

end NormalizedTools

/-- Tools for which an image is prepared, and whom they are for. -/
structure ToolsProfile where
  tools : NormalizedTools
  global : Bool
  projects : List Bytes

/-- The profile of some tools with one more project. -/
def withProject (path : Bytes) (tools : NormalizedTools) : Option ToolsProfile → ToolsProfile
  | some profile => { profile with projects := profile.projects ++ [path] }
  | none => ⟨tools, false, [path]⟩

/-- Adds a project to the profile of its tools. -/
def addProject (profiles : Std.TreeMap NormalizedTools ToolsProfile) (path : Bytes)
    (tools : NormalizedTools) : Std.TreeMap NormalizedTools ToolsProfile :=
  profiles.alter tools fun profile => some (withProject path tools profile)

/-- The global profile comes first, then the profiles by their first project. -/
def profileLe (a b : ToolsProfile) : Bool :=
  match a.global, b.global with
  | true, false => true
  | false, true => false
  | _, _ => (compare a.projects.head? b.projects.head?).isLE

def toolsProfiles (file : ConfigFile) : List ToolsProfile :=
  let globalApt := file.tools.apt.getD []
  let globalRun := file.tools.run.getD []
  let global := NormalizedTools.new globalApt globalRun
  let profiles : Std.TreeMap NormalizedTools ToolsProfile :=
    Std.TreeMap.insert ∅ global ⟨global, true, []⟩
  let profiles := file.projects.foldl (fun profiles path overrides =>
    addProject profiles path
      (.new (overrides.tools.apt.getD globalApt) (overrides.tools.run.getD globalRun))) profiles
  (profiles.toList.map Prod.snd).mergeSort profileLe

/-! ## The profile of given tools -/

/-- The projects with given tools. -/
def assigned (pairs : List (Bytes × NormalizedTools)) (tools : NormalizedTools) : List Bytes :=
  (pairs.filter fun pair => pair.2 = tools).map Prod.fst

theorem assigned_append_singleton (pairs : List (Bytes × NormalizedTools)) (path : Bytes)
    (tools tools' : NormalizedTools) : assigned (pairs ++ [(path, tools)]) tools' =
      assigned pairs tools' ++ if tools = tools' then [path] else [] := by
  rw [assigned, List.filter_append, List.map_append]
  by_cases h : tools = tools' <;> simp [assigned, h]

theorem mem_assigned {pairs : List (Bytes × NormalizedTools)} {tools : NormalizedTools}
    {path : Bytes} : path ∈ assigned pairs tools ↔ (path, tools) ∈ pairs := by
  simp [assigned]

/-- The profile of given tools when some projects have been added. -/
def profileOf (global : NormalizedTools) (pairs : List (Bytes × NormalizedTools))
    (tools : NormalizedTools) : Option ToolsProfile :=
  if tools = global ∨ assigned pairs tools ≠ [] then
    some ⟨tools, decide (tools = global), assigned pairs tools⟩
  else none

theorem getElem?_addProject (profiles : Std.TreeMap NormalizedTools ToolsProfile) (path : Bytes)
    (tools tools' : NormalizedTools) : (addProject profiles path tools)[tools']? =
      if tools = tools' then some (withProject path tools profiles[tools]?) else profiles[tools']? := by
  rw [addProject, Std.TreeMap.getElem?_alter]
  simp only [Std.LawfulEqCmp.compare_eq_iff_eq]

/-- **Each profile collects the projects with its tools, in order.** -/
theorem getElem?_profilesOf (global : NormalizedTools) (pairs : List (Bytes × NormalizedTools))
    (tools : NormalizedTools) :
    (pairs.foldl (fun profiles pair => addProject profiles pair.1 pair.2)
      (Std.TreeMap.insert ∅ global ⟨global, true, []⟩))[tools]? = profileOf global pairs tools := by
  induction pairs using List.reverseRecOn generalizing tools with
  | nil =>
    rw [List.foldl_nil, Std.TreeMap.getElem?_insert, Std.TreeMap.getElem?_emptyc, profileOf]
    simp only [Std.LawfulEqCmp.compare_eq_iff_eq]
    by_cases h : global = tools
    · subst h
      simp [assigned]
    · have h' : tools ≠ global := fun heq => h heq.symm
      simp [assigned, h, h']
  | append_singleton pairs pair ih =>
    rw [List.foldl_append, List.foldl_cons, List.foldl_nil, getElem?_addProject, ih, ih, profileOf,
      profileOf, profileOf, assigned_append_singleton]
    by_cases h : pair.2 = tools
    · subst h
      have hnew : assigned pairs pair.2 ++ [pair.1] ≠ [] := List.append_ne_nil_of_right_ne_nil _ (by simp)
      rw [if_pos rfl, if_pos rfl]
      by_cases hold : pair.2 = global ∨ assigned pairs pair.2 ≠ []
      · rw [if_pos hold, if_pos (.inr hnew)]
        rfl
      · rw [if_neg hold, if_pos (.inr hnew)]
        rw [not_or, not_not] at hold
        rw [hold.2, decide_eq_false hold.1]
        rfl
    · rw [if_neg h, if_neg h, List.append_nil]

/-- The projects of the configuration, each with its tools. -/
def ConfigFile.assignments (file : ConfigFile) : List (Bytes × NormalizedTools) :=
  file.projects.toList.map fun project => (project.1, .new
    (project.2.tools.apt.getD (file.tools.apt.getD []))
    (project.2.tools.run.getD (file.tools.run.getD [])))

def ConfigFile.globalTools (file : ConfigFile) : NormalizedTools :=
  .new (file.tools.apt.getD []) (file.tools.run.getD [])

theorem ConfigFile.keys_assignments (file : ConfigFile) :
    file.assignments.map Prod.fst = file.projects.keys := by
  rw [assignments, List.map_map, ← Std.TreeMap.map_fst_toList_eq_keys]
  rfl

theorem profileOf_eq_some {global : NormalizedTools} {pairs : List (Bytes × NormalizedTools)}
    {tools : NormalizedTools} {profile : ToolsProfile} (h : profileOf global pairs tools = some profile) :
    (tools = global ∨ assigned pairs tools ≠ []) ∧
      profile = ⟨tools, decide (tools = global), assigned pairs tools⟩ := by
  unfold profileOf at h
  split at h
  · exact ⟨‹_›, (Option.some.inj h).symm⟩
  · cases h

/-- The profiles as they are collected. -/
def ConfigFile.collected (file : ConfigFile) : Std.TreeMap NormalizedTools ToolsProfile :=
  file.assignments.foldl (fun profiles pair => addProject profiles pair.1 pair.2)
    (Std.TreeMap.insert ∅ file.globalTools ⟨file.globalTools, true, []⟩)

theorem toolsProfiles_eq (file : ConfigFile) :
    toolsProfiles file = (file.collected.toList.map Prod.snd).mergeSort profileLe := by
  rw [ConfigFile.collected, ConfigFile.assignments, List.foldl_map]
  show List.mergeSort (List.map Prod.snd (Std.TreeMap.toList (Std.TreeMap.foldl _ _ _))) _ = _
  rw [Std.TreeMap.foldl_eq_foldl_toList]
  rfl

theorem mem_collected {file : ConfigFile} {tools : NormalizedTools} {profile : ToolsProfile} :
    (tools, profile) ∈ file.collected.toList ↔
      profileOf file.globalTools file.assignments tools = some profile := by
  rw [Std.TreeMap.mem_toList_iff_getElem?_eq_some, ConfigFile.collected, getElem?_profilesOf]

theorem mem_toolsProfiles {file : ConfigFile} {profile : ToolsProfile} :
    profile ∈ toolsProfiles file ↔
      profileOf file.globalTools file.assignments profile.tools = some profile := by
  rw [toolsProfiles_eq, List.mem_mergeSort, List.mem_map]
  constructor
  · rintro ⟨⟨tools, found⟩, hmem, rfl⟩
    rw [mem_collected] at hmem
    obtain ⟨-, rfl⟩ := profileOf_eq_some hmem
    exact hmem
  · intro h
    exact ⟨(profile.tools, profile), mem_collected.mpr h, rfl⟩

/-- Profiles are told apart by their tools. -/
theorem nodup_tools_toolsProfiles (file : ConfigFile) :
    ((toolsProfiles file).map ToolsProfile.tools).Nodup := by
  have htools : (file.collected.toList.map Prod.snd).map ToolsProfile.tools = file.collected.keys := by
    rw [List.map_map, ← Std.TreeMap.map_fst_toList_eq_keys]
    refine List.map_congr_left fun pair hpair => ?_
    obtain ⟨-, h⟩ := profileOf_eq_some (mem_collected.mp hpair)
    exact congrArg ToolsProfile.tools h
  rw [toolsProfiles_eq, ((List.mergeSort_perm _ _).map _).nodup_iff, htools]
  exact Std.TreeMap.nodup_keys

/-! ## The order of the profiles -/

theorem profileLe_trans {a b c : ToolsProfile} (hab : profileLe a b = true)
    (hbc : profileLe b c = true) : profileLe a c = true := by
  unfold profileLe at *
  cases ha : a.global <;> cases hb : b.global <;> cases hc : c.global <;>
    simp only [ha, hb, hc, Bool.false_eq_true] at hab hbc ⊢
  · exact Std.TransCmp.isLE_trans hab hbc
  · exact Std.TransCmp.isLE_trans hab hbc

theorem profileLe_total (a b : ToolsProfile) : (profileLe a b || profileLe b a) = true := by
  unfold profileLe
  have htotal : ((compare a.projects.head? b.projects.head?).isLE ||
      (compare b.projects.head? a.projects.head?).isLE) = true := by
    rw [@Std.OrientedCmp.eq_swap _ compare _ b.projects.head?]
    cases compare a.projects.head? b.projects.head? <;> rfl
  cases a.global <;> cases b.global <;> first | rfl | exact htotal

theorem pairwise_toolsProfiles (file : ConfigFile) :
    (toolsProfiles file).Pairwise fun a b => profileLe a b = true := by
  rw [toolsProfiles_eq]
  exact @List.pairwise_mergeSort _ profileLe (fun _ _ _ => profileLe_trans) profileLe_total _

/-! ## Agreement -/

theorem normalizeConfig_tools {cfg cfg' : Config} (h : normalizeConfig cfg = .ok cfg') :
    cfg'.tools = cfg.tools := by
  unfold normalizeConfig at h
  split at h
  · rw [Except.ok.inj h]
  · rename_i memory _
    cases hmemory : normalizeMemory memory with
    | error e =>
      rw [hmemory] at h
      cases h
    | ok normalized =>
      rw [hmemory] at h
      rw [← Except.ok.inj h]

/-- The tools of a launch: those of the project where they are set, else those for every project. -/
theorem tools_of_resolveConfig {file : ConfigFile} {path : Bytes} {cfg : Config}
    (h : resolveConfig file path = .ok cfg) : cfg.normalizedTools =
      match file.projects[path]? with
      | some overrides => .new (overrides.tools.apt.getD (file.tools.apt.getD []))
          (overrides.tools.run.getD (file.tools.run.getD []))
      | none => file.globalTools := by
  have hget (x y : Option (List Bytes)) : (x <|> y).getD [] = x.getD (y.getD []) := by
    cases x <;> rfl
  unfold resolveConfig at h
  cases hkeys : file.projects.keys.forM validateProjectKey with
  | error e => rw [hkeys] at h; cases h
  | ok _ =>
    rw [hkeys] at h
    cases hproject : file.projects[path]? with
    | none =>
      simp only [hproject] at h
      cases hcpus : normalizeCpus file.resources.cpus with
      | error e => rw [hcpus] at h; cases h
      | ok cpus =>
        rw [hcpus] at h
        have htools := normalizeConfig_tools h
        rw [Config.normalizedTools, htools]
        show NormalizedTools.new ((file.tools.apt <|> none).getD []) _ = _
        rw [hget]
        exact congrArg _ (hget file.tools.run none)
    | some overrides =>
      simp only [hproject] at h
      cases hcpus : normalizeCpus (overrides.resources.cpus <|> file.resources.cpus) with
      | error e => rw [hcpus] at h; cases h
      | ok cpus =>
        rw [hcpus] at h
        have htools := normalizeConfig_tools h
        rw [Config.normalizedTools, htools]
        show NormalizedTools.new ((overrides.tools.apt <|> file.tools.apt <|> none).getD [])
          ((overrides.tools.run <|> file.tools.run <|> none).getD []) = _
        rw [hget, hget, hget, hget]
        rfl

/-- How the profiles relate to what launches resolve. -/
structure ProfilesAgree (file : ConfigFile) : Prop where
  /-- Every configured project is in exactly one profile. -/
  partition : ((toolsProfiles file).flatMap ToolsProfile.projects).Perm file.projects.keys
  resolved : ∀ profile ∈ toolsProfiles file, ∀ path ∈ profile.projects, ∀ cfg,
    resolveConfig file path = .ok cfg → profile.tools = cfg.normalizedTools
  distinct : ((toolsProfiles file).map ToolsProfile.tools).Nodup
  first : ∃ global rest, toolsProfiles file = global :: rest ∧ global.global = true ∧
    (∀ path ∉ file.projects, ∀ cfg, resolveConfig file path = .ok cfg →
      global.tools = cfg.normalizedTools) ∧
    (∀ profile ∈ rest, profile.global = false ∧ profile.projects ≠ []) ∧
    rest.Pairwise fun a b => ∃ x ∈ a.projects.head?, ∃ y ∈ b.projects.head?, compare x y = .lt
  ordered : ∀ profile ∈ toolsProfiles file,
    profile.projects.Pairwise fun x y => compare x y = .lt

/-- A profile as it is given by its tools. -/
theorem eq_of_mem_toolsProfiles {file : ConfigFile} {profile : ToolsProfile}
    (h : profile ∈ toolsProfiles file) :
    (profile.tools = file.globalTools ∨ profile.projects ≠ []) ∧
      profile.global = decide (profile.tools = file.globalTools) ∧
      profile.projects = assigned file.assignments profile.tools := by
  obtain ⟨hsome, heq⟩ := profileOf_eq_some (mem_toolsProfiles.mp h)
  have hglobal := congrArg ToolsProfile.global heq
  have hprojects := congrArg ToolsProfile.projects heq
  exact ⟨hprojects ▸ hsome, hglobal, hprojects⟩

/-- The tools for every project have a profile. -/
theorem exists_global_toolsProfiles (file : ConfigFile) :
    ∃ profile ∈ toolsProfiles file, profile.tools = file.globalTools := by
  refine ⟨⟨file.globalTools, true, assigned file.assignments file.globalTools⟩, ?_, rfl⟩
  rw [mem_toolsProfiles, profileOf, if_pos (.inl rfl), decide_eq_true rfl]

/-- A project is in the profile of its tools. -/
theorem mem_projects_iff {file : ConfigFile} {profile : ToolsProfile}
    (h : profile ∈ toolsProfiles file) {path : Bytes} :
    path ∈ profile.projects ↔ (path, profile.tools) ∈ file.assignments := by
  rw [(eq_of_mem_toolsProfiles h).2.2, mem_assigned]

theorem sublist_keys_of_mem {file : ConfigFile} {profile : ToolsProfile}
    (h : profile ∈ toolsProfiles file) : profile.projects.Sublist file.projects.keys := by
  rw [(eq_of_mem_toolsProfiles h).2.2, ← file.keys_assignments]
  exact List.filter_sublist.map Prod.fst

theorem mem_assignments {file : ConfigFile} {path : Bytes} {tools : NormalizedTools} :
    (path, tools) ∈ file.assignments ↔ ∃ overrides, file.projects[path]? = some overrides ∧
      tools = .new (overrides.tools.apt.getD (file.tools.apt.getD []))
        (overrides.tools.run.getD (file.tools.run.getD [])) := by
  rw [ConfigFile.assignments, List.mem_map]
  constructor
  · rintro ⟨⟨p, overrides⟩, hmem, heq⟩
    obtain ⟨rfl, rfl⟩ := Prod.mk.inj heq
    exact ⟨overrides, Std.TreeMap.mem_toList_iff_getElem?_eq_some.mp hmem, rfl⟩
  · rintro ⟨overrides, hget, rfl⟩
    exact ⟨(path, overrides), Std.TreeMap.mem_toList_iff_getElem?_eq_some.mpr hget, rfl⟩

/-- A project is in one profile only. -/
theorem tools_unique {file : ConfigFile} {path : Bytes} {tools tools' : NormalizedTools}
    (h : (path, tools) ∈ file.assignments) (h' : (path, tools') ∈ file.assignments) :
    tools = tools' := by
  obtain ⟨overrides, hget, rfl⟩ := mem_assignments.mp h
  obtain ⟨overrides', hget', rfl⟩ := mem_assignments.mp h'
  obtain rfl := Option.some.inj (hget.symm.trans hget')
  rfl

theorem perm_projects (file : ConfigFile) :
    ((toolsProfiles file).flatMap ToolsProfile.projects).Perm file.projects.keys := by
  have hdistinct := List.pairwise_map.mp (nodup_tools_toolsProfiles file)
  refine (List.perm_ext_iff_of_nodup (List.nodup_flatMap.mpr ⟨fun profile hprofile => ?_, ?_⟩)
    Std.TreeMap.nodup_keys).mpr fun path => ?_
  · exact (sublist_keys_of_mem hprofile).nodup Std.TreeMap.nodup_keys
  · refine hdistinct.imp_of_mem fun ha hb hne path hpa hpb => hne ?_
    exact tools_unique ((mem_projects_iff ha).mp hpa) ((mem_projects_iff hb).mp hpb)
  · rw [List.mem_flatMap, ← file.keys_assignments, List.mem_map]
    constructor
    · rintro ⟨profile, hprofile, hpath⟩
      exact ⟨_, (mem_projects_iff hprofile).mp hpath, rfl⟩
    · rintro ⟨⟨_, tools⟩, hmem, rfl⟩
      have hne : assigned file.assignments tools ≠ [] := List.ne_nil_of_mem (mem_assigned.mpr hmem)
      refine ⟨⟨tools, decide (tools = file.globalTools), assigned file.assignments tools⟩, ?_,
        mem_assigned.mpr hmem⟩
      rw [mem_toolsProfiles, profileOf, if_pos (.inr hne)]

/-- Profiles after the global one are ordered by their first projects. -/
theorem first_lt_first {file : ConfigFile} {a b : ToolsProfile} (ha : a ∈ toolsProfiles file)
    (hb : b ∈ toolsProfiles file) (hne : a.tools ≠ b.tools) (hga : a.tools ≠ file.globalTools)
    (hgb : b.tools ≠ file.globalTools) (hle : profileLe a b = true) :
    ∃ x ∈ a.projects.head?, ∃ y ∈ b.projects.head?, compare x y = .lt := by
  have hfirst {p : ToolsProfile} (hp : p ∈ toolsProfiles file) (hg : p.tools ≠ file.globalTools) :
      ∃ x, p.projects.head? = some x ∧ (x, p.tools) ∈ file.assignments := by
    obtain ⟨hsome, -, -⟩ := eq_of_mem_toolsProfiles hp
    obtain ⟨x, xs, hxs⟩ := List.exists_cons_of_ne_nil (hsome.resolve_left hg)
    refine ⟨x, by rw [hxs]; rfl, (mem_projects_iff hp).mp ?_⟩
    rw [hxs]
    exact List.mem_cons_self
  obtain ⟨x, hx, hxmem⟩ := hfirst ha hga
  obtain ⟨y, hy, hymem⟩ := hfirst hb hgb
  refine ⟨x, hx, y, hy, ?_⟩
  have hle' : (compare x y).isLE = true := by
    rw [profileLe, (eq_of_mem_toolsProfiles ha).2.1, (eq_of_mem_toolsProfiles hb).2.1,
      decide_eq_false hga, decide_eq_false hgb, hx, hy] at hle
    exact hle
  cases hcompare : compare x y with
  | lt => rfl
  | eq =>
    obtain rfl := Std.LawfulEqCmp.compare_eq_iff_eq.mp hcompare
    exact absurd (tools_unique hxmem hymem) hne
  | gt =>
    rw [hcompare] at hle'
    cases hle'

/-- **Profiles agree with what launches resolve.** -/
theorem profiles_agree (file : ConfigFile) : ProfilesAgree file where
  partition := perm_projects file
  resolved profile hprofile path hpath cfg hcfg := by
    obtain ⟨overrides, hget, htools⟩ := mem_assignments.mp ((mem_projects_iff hprofile).mp hpath)
    rw [tools_of_resolveConfig hcfg, hget]
    exact htools
  distinct := nodup_tools_toolsProfiles file
  first := by
    obtain ⟨g, hg, hgtools⟩ := exists_global_toolsProfiles file
    have hdistinct := nodup_tools_toolsProfiles file
    have hsorted := pairwise_toolsProfiles file
    cases hprofiles : toolsProfiles file with
    | nil => simp [hprofiles] at hg
    | cons global rest =>
      have hmem : global ∈ toolsProfiles file := by rw [hprofiles]; exact List.mem_cons_self
      have hrest {profile : ToolsProfile} (h : profile ∈ rest) : profile ∈ toolsProfiles file := by
        rw [hprofiles]
        exact List.mem_cons_of_mem _ h
      rw [hprofiles] at hg hdistinct hsorted
      obtain ⟨hfirst, hrestSorted⟩ := List.pairwise_cons.mp hsorted
      obtain ⟨hnew, hrestDistinct⟩ := List.nodup_cons.mp hdistinct
      have hglobal : global.global = true := by
        rcases List.mem_cons.mp hg with rfl | hgrest
        · rw [(eq_of_mem_toolsProfiles hmem).2.1, decide_eq_true hgtools]
        · have hle := hfirst g hgrest
          rw [profileLe, (eq_of_mem_toolsProfiles (hrest hgrest)).2.1, decide_eq_true hgtools] at hle
          cases hglobal : global.global with
          | true => rfl
          | false =>
            rw [hglobal] at hle
            cases hle
      have htools : global.tools = file.globalTools := by
        rwa [(eq_of_mem_toolsProfiles hmem).2.1, decide_eq_true_eq] at hglobal
      have hother {profile : ToolsProfile} (h : profile ∈ rest) :
          profile.tools ≠ file.globalTools := fun heq =>
        hnew (List.mem_map.mpr ⟨profile, h, heq.trans htools.symm⟩)
      refine ⟨global, rest, rfl, hglobal, fun path hpath cfg hcfg => ?_, fun profile h => ?_, ?_⟩
      · rw [tools_of_resolveConfig hcfg, Std.TreeMap.getElem?_eq_none hpath, htools]
      · obtain ⟨hsome, hflag, -⟩ := eq_of_mem_toolsProfiles (hrest h)
        exact ⟨hflag.trans (decide_eq_false (hother h)), hsome.resolve_left (hother h)⟩
      · refine (hrestSorted.and (List.pairwise_map.mp hrestDistinct)).imp_of_mem
          fun ha hb h => ?_
        exact first_lt_first (hrest ha) (hrest hb) h.2 (hother ha) (hother hb) h.1
  ordered profile hprofile :=
    Std.TreeMap.ordered_keys.sublist (sublist_keys_of_mem hprofile)

/-! ## The image of a launch -/

/-- **The image of a launch is one that was prepared for its profile.** -/
theorem launch_image_prepared {file : ConfigFile} {path : Bytes} {cfg : Config}
    (h : resolveConfig file path = .ok cfg) : ∃ profile ∈ toolsProfiles file,
      ∀ (sha256 : Bytes → Bytes) (engine : Engine) (fromImage tagBase : Bytes),
        ensureToolsImage sha256 engine fromImage tagBase (cfg.tools.apt.getD [])
            (cfg.tools.run.getD []) =
          ensureToolsImage sha256 engine fromImage tagBase profile.tools.apt profile.tools.run := by
  have hprofile : ∃ profile ∈ toolsProfiles file, profile.tools = cfg.normalizedTools := by
    rw [tools_of_resolveConfig h]
    cases hget : file.projects[path]? with
    | none => exact exists_global_toolsProfiles file
    | some overrides =>
      have hmem : path ∈ file.projects.keys := by
        rw [Std.TreeMap.mem_keys, Std.TreeMap.mem_iff_isSome_getElem?, hget]
        rfl
      obtain ⟨profile, hprofile, hpath⟩ :=
        List.mem_flatMap.mp ((perm_projects file).mem_iff.mpr hmem)
      obtain ⟨overrides', hget', htools⟩ :=
        mem_assignments.mp ((mem_projects_iff hprofile).mp hpath)
      obtain rfl := Option.some.inj (hget.symm.trans hget')
      exact ⟨profile, hprofile, htools⟩
  obtain ⟨profile, hmem, htools⟩ := hprofile
  refine ⟨profile, hmem, fun sha256 engine fromImage tagBase => ?_⟩
  rw [ensureToolsImage, ensureToolsImage, NormalizedTools.new_self, htools, Config.normalizedTools]

end Vhrn.Cli
