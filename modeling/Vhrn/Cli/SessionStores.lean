import Vhrn.Foundations.Paths

/-!
# Session stores

A harness that partitions sessions gets a host directory for each project, mounted read-write next to
the state that all projects share. The directory is named by the history key of the project's text,
which keeps ASCII letters and digits and writes a dash for every other character. Under an absolute
cache root two projects get isolated stores exactly when their texts differ in a letter or digit or in
length (`sessionStores_isolated_iff`); `/a/b` and `/a-b` get the same one.
-/

namespace Vhrn.Cli

open Paths

/-! ## Harnesses -/

/-- What the session stores depend on in a harness. -/
structure Harness where
  name : Bytes
  stateDir : Bytes
  sessionsEnv : Bytes
  sessionsDir : Bytes
  deriving DecidableEq

/-- The built-in harnesses. -/
def registry : List Harness := [
  { name := ascii "claude", stateDir := ascii ".claude", sessionsEnv := [], sessionsDir := [] },
  { name := ascii "codex", stateDir := ascii ".codex", sessionsEnv := ascii "CODEX_SQLITE_HOME",
    sessionsDir := ascii "sessions" },
  { name := ascii "pi", stateDir := ascii ".pi/agent",
    sessionsEnv := ascii "PI_CODING_AGENT_SESSION_DIR", sessionsDir := [] }]

/-- The harness keeps a session store for each project. -/
def Harness.Partitions (h : Harness) : Prop := h.sessionsEnv ≠ []

instance (h : Harness) : Decidable h.Partitions := inferInstanceAs (Decidable (_ ≠ _))

/-! ## Directories -/

/-- The cache root: under the cache directory of the environment, else under the home directory. -/
def vhrnCacheFrom (home : Bytes) (xdgCache : Option Bytes) : Bytes :=
  match xdgCache with
  | some v => if v = [] then join (join home (ascii ".cache")) (ascii "vhrn") else join v (ascii "vhrn")
  | none => join (join home (ascii ".cache")) (ascii "vhrn")

/-- The store that all projects of one harness share. -/
def hostStateDir (cache harness : Bytes) : Bytes := join (join cache (ascii "state")) harness

/-- The characters of a text, each by its first octet. -/
def leadingOctets (text : Bytes) : Bytes := text.filter fun b => !isContinuation b

/-- Every character outside the ASCII letters and digits becomes a dash. -/
def historyKey (project : Bytes) : Bytes :=
  (leadingOctets project).map fun b => if Ascii.isAlnum b then b else 45

/-- The store of one project, unless the harness does not partition sessions. -/
def prepareSessions (cache : Bytes) (h : Harness) (key : Bytes) : Option Bytes :=
  if h.sessionsEnv = [] then none
  else some (join (join (join cache (ascii "state")) (h.name ++ ascii "-sessions")) key)

/-- A host directory bound into the container, where it can be written. -/
structure Volume where
  host : Bytes
  container : Bytes

/-- The container's home directory. -/
def containerHome : Bytes := ascii "/home/dev"

/-- The mount of the store beside the config directory. -/
def sessionsMount (h : Harness) (sessions : Bytes) : List Volume :=
  if sessions = [] ∨ h.sessionsEnv = [] then []
  else [⟨sessions, containerHome ++ ascii "/" ++ h.stateDir ++ ascii "-sessions"⟩]

/-- The mount of the transcripts of the store under the config directory. -/
def transcriptsMount (h : Harness) (sessions : Bytes) : List Volume :=
  if sessions = [] ∨ h.sessionsDir = [] then []
  else [⟨join sessions h.sessionsDir,
    containerHome ++ ascii "/" ++ h.stateDir ++ ascii "/" ++ h.sessionsDir⟩]

/-- A canonical project directory: absolute, without dots between its separators. -/
structure Project where
  path : Bytes
  absolute : path.head? = some 47
  canonical : ∀ c ∈ components path, c ≠ [46, 46]

/-- The session store that a launch creates, and the volumes by which its container reaches it. -/
structure SessionStore where
  directory : Bytes
  volumes : List Volume

/-- A path as a launch in the project resolves it: the project is the working directory. -/
def Project.resolve (project : Project) (path : Bytes) : Bytes := join project.path path

/-- What the launch of a harness in a project does about sessions. The volumes carry the text of the
store as it is, the directory is created where the launch resolves it. -/
def prepareContainer (cache : Bytes) (h : Harness) (project : Project) : Option SessionStore :=
  (prepareSessions cache h (historyKey (toStringLossy project.path))).map fun store =>
    ⟨project.resolve store,
      sessionsMount h (toStringLossy store) ++ transcriptsMount h (toStringLossy store)⟩

/-! ## Isolation -/

/-- Every directory that one store consists of or is mounted from is apart from every one of the
other's. -/
structure SessionStore.Isolated (a b : SessionStore) : Prop where
  directories : Apart a.directory b.directory
  volumes : ∀ v ∈ a.volumes, ∀ w ∈ b.volumes, Apart v.host w.host

/-- No directory of the project's store lies inside a shared state directory. -/
structure SessionStore.Unshared (cache : Bytes) (p : Project) (a : SessionStore) : Prop where
  directory : ∀ h ∈ registry, ¬ Within (p.resolve (hostStateDir cache h.name)) a.directory
  volumes : ∀ h ∈ registry, ∀ v ∈ a.volumes, ¬ Within (toStringLossy (hostStateDir cache h.name)) v.host

/-- Two launches of a harness keep their sessions from each other and from the shared state. -/
def SessionsIsolated (cache : Bytes) (h : Harness) (p q : Project) : Prop :=
  ∃ a b, prepareContainer cache h p = some a ∧ prepareContainer cache h q = some b ∧
    a.Isolated b ∧ a.Unshared cache p ∧ b.Unshared cache q

/-- Two characters that a history key cannot tell apart. -/
def SameInKey (b c : UInt8) : Prop := b = c ∨ Ascii.isAlnum b = false ∧ Ascii.isAlnum c = false

instance (b c : UInt8) : Decidable (SameInKey b c) := inferInstanceAs (Decidable (_ ∨ _))

/-- The texts of two projects differ in their number of characters, or in a place where one of them has
an ASCII letter or digit. -/
def Distinguished (p q : Project) : Prop :=
  ¬ List.Forall₂ SameInKey (leadingOctets (toStringLossy p.path)) (leadingOctets (toStringLossy q.path))

instance (p q : Project) : Decidable (Distinguished p q) := inferInstanceAs (Decidable (¬ _))

theorem sameInKey_iff {b c : UInt8} : SameInKey b c ↔
    (if Ascii.isAlnum b then b else 45) = if Ascii.isAlnum c then c else 45 := by
  have hdash {b c : UInt8} (h : Ascii.isAlnum b = true) (hbc : b = 45 ∨ b = c)
      (hc : Ascii.isAlnum c = false) : False := by
    rcases hbc with rfl | rfl
    · exact absurd h (by decide)
    · exact absurd h (by simp [hc])
  unfold SameInKey
  cases hb : Ascii.isAlnum b <;> cases hc : Ascii.isAlnum c
  · simp
  · constructor
    · rintro (rfl | ⟨-, h⟩)
      · exact absurd hb (by simp [hc])
      · exact absurd h (by simp)
    · exact fun h => (hdash hc (.inl h.symm) hb).elim
  · constructor
    · rintro (rfl | ⟨h, -⟩)
      · exact absurd hb (by simp [hc])
      · exact absurd h (by simp)
    · exact fun h => (hdash hb (.inl h) hc).elim
  · simp

/-- Equal history keys are what the texts' characters leave undistinguished. -/
theorem historyKey_eq_iff {s t : Bytes} :
    historyKey s = historyKey t ↔ List.Forall₂ SameInKey (leadingOctets s) (leadingOctets t) := by
  unfold historyKey
  rw [← List.forall₂_eq_eq_eq, List.forall₂_map_left_iff, List.forall₂_map_right_iff]
  have hrel : (fun b c : UInt8 => (if Ascii.isAlnum b then b else 45) =
      if Ascii.isAlnum c then c else 45) = SameInKey := by
    funext b c
    exact propext sameInKey_iff.symm
  rw [hrel]

/-! ## The components of a store -/

theorem isAscii_historyKey (s : Bytes) : isAscii (historyKey s) = true := by
  have hall (b : UInt8) : (if Ascii.isAlnum b then b else 45) < 128 := by
    revert b; exact forall_byte (by decide +kernel)
  simp only [historyKey, isAscii, List.all_map, List.all_eq_true, Function.comp_apply, decide_eq_true_eq]
  exact fun b _ => hall b

/-- The history key of a project is the name of a directory. -/
theorem name_historyKey (p : Project) : Name (historyKey (toStringLossy p.path)) := by
  obtain ⟨s, hs⟩ := List.head?_eq_some_iff.mp p.absolute
  have hkey : historyKey (toStringLossy p.path) = 45 :: historyKey (toStringLossyFrom 0 0 s) := by
    rw [hs]
    rfl
  have hall (b : UInt8) : (if Ascii.isAlnum b then b else 45) ≠ 47 := by
    revert b; exact forall_byte (by decide +kernel)
  refine ⟨fun hmem => ?_, ?_⟩
  · obtain ⟨b, -, hb⟩ := List.mem_map.mp hmem
    exact hall b hb
  · rw [hkey]
    simp [isComponent]

theorem vhrnCacheFrom_ne_nil (home : Bytes) (xdgCache : Option Bytes) :
    vhrnCacheFrom home xdgCache ≠ [] := by
  have hname : Name (ascii "vhrn") := ⟨by decide, by decide⟩
  unfold vhrnCacheFrom
  split
  · split
    · exact join_ne_nil hname
    · exact join_ne_nil hname
  · exact join_ne_nil hname

/-- The cache root is absolute when the environment variable is, or when it is not used and the home
directory is. -/
theorem absolute_vhrnCacheFrom {home : Bytes} {xdgCache : Option Bytes}
    (hhome : home.head? = some 47) (hxdg : ∀ v ∈ xdgCache, v = [] ∨ v.head? = some 47) :
    (vhrnCacheFrom home xdgCache).head? = some 47 := by
  have hdefault := absolute_join (absolute_join hhome (ascii ".cache")) (ascii "vhrn")
  unfold vhrnCacheFrom
  split
  · rename_i v
    split
    · exact hdefault
    · rename_i hv
      exact absolute_join ((hxdg v rfl).resolve_left hv) _
  · exact hdefault

theorem name_state : Name (ascii "state") := ⟨by decide, by decide⟩

/-- The names of a harness are plain directory names, also with the suffix of the session stores. -/
structure Harness.Named (h : Harness) : Prop where
  name : Name h.name
  ascii : isAscii h.name = true
  sessions : Name (h.name ++ Vhrn.ascii "-sessions")
  transcripts : h.sessionsDir ≠ [] → Name h.sessionsDir

theorem registry_named : ∀ h ∈ registry, h.Named := by
  have hnames : ∀ h ∈ registry, ((47 : UInt8) ∉ h.name ∧ isComponent h.name = true) ∧
      isAscii h.name = true ∧ ((47 : UInt8) ∉ h.name ++ ascii "-sessions" ∧
      isComponent (h.name ++ ascii "-sessions") = true) ∧
      (h.sessionsDir ≠ [] → (47 : UInt8) ∉ h.sessionsDir ∧ isComponent h.sessionsDir = true) := by
    decide +kernel
  intro h hmem
  obtain ⟨hn, ha, hs, hd⟩ := hnames h hmem
  exact ⟨⟨hn.1, hn.2⟩, ha, ⟨hs.1, hs.2⟩, fun hne => ⟨(hd hne).1, (hd hne).2⟩⟩

/-- No harness is named like another's session stores. -/
theorem registry_sessions_ne : ∀ h ∈ registry, ∀ h' ∈ registry, h'.name ≠ h.name ++ ascii "-sessions" := by
  decide +kernel

section

variable {cache : Bytes} (hcache : cache ≠ []) {h : Harness} (hmem : h ∈ registry) (p : Project)
include hcache hmem

/-- The directory of a project's sessions. -/
def sessionsDirectory (cache : Bytes) (h : Harness) (p : Project) : Bytes :=
  join (join (join cache (ascii "state")) (h.name ++ ascii "-sessions"))
    (historyKey (toStringLossy p.path))

theorem components_sessionsDirectory : components (sessionsDirectory cache h p) =
    (components cache ++ [ascii "state"]) ++
      (h.name ++ ascii "-sessions") :: [historyKey (toStringLossy p.path)] := by
  have hn := registry_named h hmem
  unfold sessionsDirectory
  rw [components_join (join_ne_nil hn.sessions) (name_historyKey p),
    components_join (join_ne_nil name_state) hn.sessions, components_join hcache name_state]
  simp

theorem components_toStringLossy_sessionsDirectory :
    components (toStringLossy (sessionsDirectory cache h p)) =
      (components (toStringLossy cache) ++ [ascii "state"]) ++
        (h.name ++ ascii "-sessions") :: [historyKey (toStringLossy p.path)] := by
  have hn := registry_named h hmem
  have ha : isAscii (h.name ++ ascii "-sessions") = true := by
    have hs : isAscii (ascii "-sessions") = true := by decide
    rw [isAscii, List.all_append, Bool.and_eq_true]
    exact ⟨hn.ascii, hs⟩
  unfold sessionsDirectory
  rw [components_toStringLossy_join (join_ne_nil hn.sessions) (name_historyKey p) (isAscii_historyKey _),
    components_toStringLossy_join (join_ne_nil name_state) hn.sessions ha,
    components_toStringLossy_join hcache name_state (by decide)]
  simp

/-- Every volume of a store is mounted from the store or from below it. -/
theorem components_volume {v : Volume}
    (hv : v ∈ sessionsMount h (toStringLossy (sessionsDirectory cache h p)) ++
      transcriptsMount h (toStringLossy (sessionsDirectory cache h p))) :
    ∃ below, components v.host = (components (toStringLossy cache) ++ [ascii "state"]) ++
      (h.name ++ ascii "-sessions") :: historyKey (toStringLossy p.path) :: below := by
  have hcomp := components_toStringLossy_sessionsDirectory hcache hmem p
  have hne : toStringLossy (sessionsDirectory cache h p) ≠ [] :=
    toStringLossy_ne_nil (join_ne_nil (name_historyKey p))
  rcases List.mem_append.mp hv with hv | hv
  · unfold sessionsMount at hv
    split at hv
    · exact absurd hv List.not_mem_nil
    · obtain rfl := List.mem_singleton.mp hv
      exact ⟨[], hcomp⟩
  · unfold transcriptsMount at hv
    split at hv
    · exact absurd hv List.not_mem_nil
    · rename_i hdir
      obtain rfl := List.mem_singleton.mp hv
      refine ⟨[h.sessionsDir], ?_⟩
      rw [components_join hne ((registry_named h hmem).transcripts (not_or.mp hdir).2), hcomp]
      simp

end

/-! ## When the stores are isolated -/

theorem prepareContainer_eq {cache : Bytes} (hroot : cache.head? = some 47) {h : Harness}
    (hpart : h.Partitions) (p : Project) :
    prepareContainer cache h p = some ⟨sessionsDirectory cache h p,
      sessionsMount h (toStringLossy (sessionsDirectory cache h p)) ++
        transcriptsMount h (toStringLossy (sessionsDirectory cache h p))⟩ := by
  have habsolute : (sessionsDirectory cache h p).head? = some 47 :=
    absolute_join (absolute_join (absolute_join hroot _) _) _
  have hresolve : p.resolve (sessionsDirectory cache h p) = sessionsDirectory cache h p :=
    join_of_absolute habsolute _
  unfold prepareContainer prepareSessions
  rw [if_neg hpart]
  show some (SessionStore.mk (p.resolve (sessionsDirectory cache h p)) _) = _
  rw [hresolve]
  rfl

/-- A directory below a session store is outside every shared state directory. -/
theorem not_within_state {base : List Bytes} {dir state : Bytes} {h h' : Harness} {rest : List Bytes}
    (hmem : h ∈ registry) (hmem' : h' ∈ registry) (hstate : components state = base ++ [h'.name])
    (hdir : components dir = base ++ (h.name ++ ascii "-sessions") :: rest) : ¬ Within state dir := by
  unfold Within
  rw [hstate, hdir, List.prefix_append_right_inj]
  intro hpre
  exact registry_sessions_ne h hmem h' hmem' (List.cons_prefix_cons.mp hpre).1

theorem unshared {cache : Bytes} (hroot : cache.head? = some 47) (hcache : cache ≠ []) {h : Harness}
    (hmem : h ∈ registry) (p : Project) : SessionStore.Unshared cache p ⟨sessionsDirectory cache h p,
      sessionsMount h (toStringLossy (sessionsDirectory cache h p)) ++
        transcriptsMount h (toStringLossy (sessionsDirectory cache h p))⟩ where
  directory h' hmem' := by
    have habsolute : (hostStateDir cache h'.name).head? = some 47 :=
      absolute_join (absolute_join hroot _) _
    apply not_within_state hmem hmem' _ (components_sessionsDirectory hcache hmem p)
    rw [Project.resolve, join_of_absolute habsolute, hostStateDir,
      components_join (join_ne_nil name_state) (registry_named h' hmem').name,
      components_join hcache name_state]
  volumes h' hmem' v hv := by
    obtain ⟨below, hcomp⟩ := components_volume hcache hmem p hv
    apply not_within_state hmem hmem' _ hcomp
    rw [hostStateDir, components_toStringLossy_join (join_ne_nil name_state)
      (registry_named h' hmem').name (registry_named h' hmem').ascii,
      components_toStringLossy_join hcache name_state (by decide)]

/-- **Under an absolute cache root two projects have isolated session stores exactly when their texts
differ in length or in a place where one of them has an ASCII letter or digit.** -/
theorem sessionStores_isolated_iff {home : Bytes} {xdgCache : Option Bytes}
    (hroot : (vhrnCacheFrom home xdgCache).head? = some 47) {h : Harness} (hmem : h ∈ registry)
    (hpart : h.Partitions) (p q : Project) :
    SessionsIsolated (vhrnCacheFrom home xdgCache) h p q ↔ Distinguished p q := by
  have hcache := vhrnCacheFrom_ne_nil home xdgCache
  generalize vhrnCacheFrom home xdgCache = cache at hroot hcache
  rw [Distinguished, ← historyKey_eq_iff]
  constructor
  · rintro ⟨a, b, ha, hb, hiso, -, -⟩ hkey
    rw [prepareContainer_eq hroot hpart, Option.some.injEq] at ha hb
    have hdir : a.directory = b.directory := by
      rw [← ha, ← hb]
      simp only [sessionsDirectory, hkey]
    exact hiso.directories.1 (hdir ▸ List.prefix_refl _)
  · intro hkey
    refine ⟨_, _, prepareContainer_eq hroot hpart p, prepareContainer_eq hroot hpart q, ⟨?_, ?_⟩,
      unshared hroot hcache hmem p, unshared hroot hcache hmem q⟩
    · have hdir (r : Project) : components (sessionsDirectory cache h r) =
          (components cache ++ [ascii "state", h.name ++ ascii "-sessions"]) ++
            [historyKey (toStringLossy r.path)] := by
        rw [components_sessionsDirectory hcache hmem r]
        simp
      exact apart_of_components (hdir p) (hdir q) hkey
    · intro v hv w hw
      have hvolume {r : Project} {u : Volume} {below : List Bytes}
          (hu : components u.host = (components (toStringLossy cache) ++ [ascii "state"]) ++
            (h.name ++ ascii "-sessions") :: historyKey (toStringLossy r.path) :: below) :
          components u.host = (components (toStringLossy cache) ++
            [ascii "state", h.name ++ ascii "-sessions"]) ++ historyKey (toStringLossy r.path) :: below := by
        rw [hu]
        simp
      obtain ⟨below, hv⟩ := components_volume hcache hmem p hv
      obtain ⟨below', hw⟩ := components_volume hcache hmem q hw
      exact apart_of_components (hvolume hv) (hvolume hw) hkey

/-! ## Projects with one store -/

def codex : Harness :=
  { name := ascii "codex", stateDir := ascii ".codex", sessionsEnv := ascii "CODEX_SQLITE_HOME",
    sessionsDir := ascii "sessions" }

/-- `/home/dev/a/b` -/
def nestedProject : Project := ⟨ascii "/home/dev/a/b", by decide +kernel, by decide +kernel⟩

/-- `/home/dev/a-b` -/
def dashedProject : Project := ⟨ascii "/home/dev/a-b", by decide +kernel, by decide +kernel⟩

/-- **Two distinct projects share one store**: the separator and the dash have the same key. -/
theorem sessionStores_shared : nestedProject.path ≠ dashedProject.path ∧
    ¬ SessionsIsolated (vhrnCacheFrom (ascii "/home/dev") none) codex nestedProject dashedProject := by
  refine ⟨by decide +kernel, ?_⟩
  rintro ⟨a, b, ha, hb, hiso, -, -⟩
  have hkey : historyKey (toStringLossy nestedProject.path) =
      historyKey (toStringLossy dashedProject.path) := by decide +kernel
  have hdir : a.directory = b.directory := by
    rw [prepareContainer_eq (by decide +kernel) (by decide +kernel), Option.some.injEq] at ha hb
    rw [← ha, ← hb]
    simp only [sessionsDirectory, hkey]
  exact hiso.directories.1 (hdir ▸ List.prefix_refl _)

theorem sessionStores_isolated_codex : SessionsIsolated (vhrnCacheFrom (ascii "/home/dev") none) codex
    nestedProject ⟨ascii "/home/dev/a/c", by decide +kernel, by decide +kernel⟩ := by
  have hroot : (vhrnCacheFrom (ascii "/home/dev") none).head? = some 47 :=
    absolute_vhrnCacheFrom rfl (by simp)
  apply (sessionStores_isolated_iff hroot (by decide +kernel) (by decide +kernel) _ _).mpr
  decide +kernel

end Vhrn.Cli
