import Vhrn.Cli.Batches

/-!
# What a denial closes

A denial removes names from one file and reports the other layers that still hold them. It compares
names as texts, while the proxy lets a host through when some entry ends its labels. So a denial whose
report is empty closes the host of a run exactly when no other name in the run's layers matches it
(`deny_closes_iff`); a parent domain in another layer goes unreported (`parent_unreported`).
-/

namespace Vhrn.Cli

open Proxy (PolicyFile PublicHost)

/-! ## Sources of an effective entry -/

section

variable {α : Type} [DecidableEq α]

/-- The layers that an entry is noted with. -/
def sourcesOf (resolved : List (Resolved α)) (entry : α) : List LayerSource :=
  ((resolved.find? fun r => decide (r.entry = entry)).map Resolved.sources).getD []

theorem sourcesOf_cons (r : Resolved α) (rest : List (Resolved α)) (e : α) :
    sourcesOf (r :: rest) e = if r.entry = e then r.sources else sourcesOf rest e := by
  unfold sourcesOf
  rw [List.find?_cons]
  by_cases h : r.entry = e
  · rw [if_pos h, decide_eq_true h]
    rfl
  · rw [if_neg h, decide_eq_false h]

theorem mem_sourcesOf_addSource {source s : LayerSource} {entry e : α} {output : List (Resolved α)} :
    s ∈ sourcesOf (addSource source entry output) e ↔ s ∈ sourcesOf output e ∨ (e = entry ∧ s = source) := by
  induction output with
  | nil =>
    rw [addSource, sourcesOf_cons]
    by_cases h : entry = e
    · rw [if_pos h]
      simp [sourcesOf, h]
    · rw [if_neg h]
      simp [sourcesOf, Ne.symm h]
  | cons r rest ih =>
    rw [addSource]
    by_cases hr : r.entry = entry
    · rw [if_pos hr, sourcesOf_cons, sourcesOf_cons]
      by_cases he : r.entry = e
      · rw [if_pos he, if_pos he, List.mem_append, List.mem_singleton]
        simp [← hr, he]
      · have hne : e ≠ entry := fun heq => he (hr.trans heq.symm)
        rw [if_neg he, if_neg he]
        simp [hne]
    · rw [if_neg hr, sourcesOf_cons, sourcesOf_cons]
      by_cases he : r.entry = e
      · have hne : e ≠ entry := fun heq => hr (he.trans heq)
        rw [if_pos he, if_pos he]
        simp [hne]
      · rw [if_neg he, if_neg he, ih]

/-- **An effective entry is noted with the layers that hold it.** -/
theorem mem_sourcesOf_resolveEntries {layers : List (List α × LayerSource)} {e : α} {s : LayerSource} :
    s ∈ sourcesOf (resolveEntries layers) e ↔ ∃ layer ∈ layers, e ∈ layer.1 ∧ s = layer.2 := by
  have hlayer (source : LayerSource) (entries : List α) (output : List (Resolved α)) :
      s ∈ sourcesOf (entries.foldl (fun output entry => addSource source entry output) output) e ↔
        s ∈ sourcesOf output e ∨ (e ∈ entries ∧ s = source) := by
    induction entries generalizing output with
    | nil => simp
    | cons entry entries ih =>
      rw [List.foldl_cons, ih, mem_sourcesOf_addSource, List.mem_cons, or_assoc, or_and_right]
  have hall (output : List (Resolved α)) :
      s ∈ sourcesOf (layers.foldl (fun output layer =>
          layer.1.foldl (fun output entry => addSource layer.2 entry output) output) output) e ↔
        s ∈ sourcesOf output e ∨ ∃ layer ∈ layers, e ∈ layer.1 ∧ s = layer.2 := by
    induction layers generalizing output with
    | nil => simp
    | cons layer layers ih =>
      rw [List.foldl_cons, ih, hlayer, List.exists_mem_cons_iff, or_assoc]
  refine (hall []).trans (or_iff_right ?_)
  exact List.not_mem_nil

end

section

variable [Host]

/-! ## What is reported -/

theorem run_mem_granting {α : Type} [DecidableEq α] {snapshot : PolicySnapshot}
    {project : Option Bytes} {entry : α} {ofProject : PolicyProject → List α}
    {ofRun : ActiveRun → List (Resolved α)} {run : ActiveRun} {id : Bytes} (hrun : run ∈ snapshot.runs)
    (haffected : ∀ path ∈ project, Host.keyForBytes path = run.projectKey)
    (hsource : .run id ∈ sourcesOf (ofRun run) entry) :
    ascii "run:" ++ id ∈ granting snapshot project entry ofProject ofRun := by
  unfold granting
  refine List.mem_append_right _ (List.mem_flatMap.mpr ⟨run, List.mem_filter.mpr ⟨hrun, ?_⟩, ?_⟩)
  · cases project with
    | none => rfl
    | some path => exact beq_iff_eq.mpr (haffected path rfl)
  · unfold sourcesOf at hsource
    cases hfind : (ofRun run).find? fun r => decide (r.entry = entry) with
    | none =>
      rw [hfind] at hsource
      exact absurd hsource List.not_mem_nil
    | some resolved =>
      rw [hfind] at hsource
      exact List.mem_filterMap.mpr ⟨_, hsource, rfl⟩

theorem project_mem_granting {α : Type} [DecidableEq α] {snapshot : PolicySnapshot} {entry : α}
    {ofProject : PolicyProject → List α} {ofRun : ActiveRun → List (Resolved α)} {p : PolicyProject}
    (hp : p ∈ snapshot.projects) (hentry : entry ∈ ofProject p) :
    ascii "project:" ++ quotePathBytes p.path ∈ granting snapshot none entry ofProject ofRun := by
  unfold granting
  refine List.mem_append_left _ (List.mem_map.mpr ⟨p, List.mem_filter.mpr ⟨hp, ?_⟩, rfl⟩)
  exact decide_eq_true hentry

section

variable {snapshot : PolicySnapshot} {project : Option Bytes} {domain : PolicyName}

theorem granting_mem_otherSources {label : Bytes} (hne : label ≠ [])
    (h : label ∈ granting snapshot project domain PolicyProject.domains ActiveRun.effective) :
    label ∈ otherSources snapshot project domain [] := by
  refine mem_foldl_pushNew.mpr (.inr (List.mem_filter.mpr ⟨List.mem_append_right _ h, ?_⟩))
  exact decide_eq_true hne

theorem global_mem_otherSources (h : domain ∈ snapshot.global) :
    ascii "global" ∈ otherSources snapshot project domain [] := by
  refine mem_foldl_pushNew.mpr (.inr (List.mem_filter.mpr ⟨List.mem_append_left _ ?_, by decide⟩))
  refine List.mem_append_right _ ?_
  rw [if_pos h]
  exact List.mem_singleton_self _

end

/-! ## Entries of the files -/

/-- The names in a file. -/
def entriesOf (contents : Bytes) : List PolicyName := (readDomains contents).toOption.getD []

theorem entriesOf_eq {contents : Bytes} {names : List PolicyName} (h : readDomains contents = .ok names) :
    entriesOf contents = names := by
  rw [entriesOf, h]
  rfl

theorem DomainFile.read {contents : Bytes} (h : DomainFile contents) :
    readDomains contents = .ok (entriesOf contents) := by
  obtain ⟨names, hread, -⟩ := h.same
  rw [entriesOf_eq hread]
  exact hread

omit [Host] in
theorem Store.Written.contents {store : Store} (hw : store.Written) (key : Option Bytes) :
    DomainFile (store.contents ⟨key, .domain⟩) := by
  cases key with
  | none =>
    show DomainFile (store.global.getD [])
    cases hglobal : store.global with
    | none => exact domainFile_nil
    | some contents => exact hw.global contents hglobal
  | some key =>
    rw [Store.contents_domain]
    cases hproject : store.project? key with
    | none => exact domainFile_nil
    | some dir => exact (hw.projects dir (List.mem_of_find?_eq_some hproject)).allow

/-- The key of the project that a run was launched in. -/
def RunDir.key (dir : RunDir) : Bytes := trim dir.projectKey

/-- The files from which the proxy of a run takes its public policy. -/
def RunDir.allowlists (dir : RunDir) (store : Store) : List Bytes :=
  [dir.base, dir.harnessAllow, store.contents ⟨none, .domain⟩, store.contents ⟨some dir.key, .domain⟩,
    dir.run]

/-- **In enforce mode the proxy lets a host through when a name in some file matches it.** -/
theorem enforced_iff {files : List PolicyFile} {mode : PolicyFile} {contents : List Bytes}
    (hfiles : List.Forall₂ PolicyFile.Holds files contents) (hne : contents ≠ [])
    (hcontents : ∀ c ∈ contents, DomainFile c) (hmode : mode.mode = some .enforce) (host : PublicHost) :
    (Proxy.PolicyReader.decidePublicLive files mode host).allowed = true ↔
      ∃ c ∈ contents, ∃ name ∈ entriesOf c, name.entry.Matches host := by
  have hsame : List.Forall₂ (fun c names => SameDomains c ∧ readDomains c = .ok names) contents
      (contents.map entriesOf) :=
    List.forall₂_map_right_iff.mpr
      (List.forall₂_same.mpr fun c hc => ⟨(hcontents c hc).same, (hcontents c hc).read⟩)
  have hgrant : Proxy.publicGrant files = some (PolicyName.entry '' {a | ∃ entries ∈
      contents.map entriesOf, a ∈ entries}) := by
    have hnil : files ≠ [] := by
      rintro rfl
      cases hfiles
      exact hne rfl
    rw [Proxy.publicGrant, if_neg hnil]
    exact union_of_sameEntries hfiles hsame
  obtain ⟨snapshot, henforce, hmatched, heq⟩ := Proxy.decidePublicLive_usable host hgrant hmode
  rw [heq, Proxy.PublicPolicySnapshot.decide, henforce]
  refine hmatched.trans ⟨?_, ?_⟩
  · rintro ⟨_, ⟨name, ⟨_, hentries, hname⟩, rfl⟩, hm⟩
    obtain ⟨c, hc, rfl⟩ := List.mem_map.mp hentries
    exact ⟨c, hc, name, hname, hm⟩
  · rintro ⟨c, hc, name, hname, hm⟩
    exact ⟨_, ⟨name, ⟨_, List.mem_map_of_mem hc, hname⟩, rfl⟩, hm⟩

/-! ## A denial that takes effect -/

/-- The file that a denial changes. -/
def scopeFile (project : Option Bytes) : ScopeFile := ⟨project.map Host.keyForBytes, .domain⟩

/-- The names of a file that a denial leaves there. -/
def left (store : Store) (project : Option Bytes) (names : List PolicyName) (file : ScopeFile) :
    List PolicyName :=
  (entriesOf (store.contents file)).filter fun name => ¬ (file = scopeFile project ∧ name ∈ names)

/-- The snapshot with what a denial retains. -/
def afterDenial (snapshot : PolicySnapshot) (project : Option Bytes) (retained : List PolicyName) :
    PolicySnapshot :=
  match project with
  | none => { snapshot with global := retained }
  | some path => snapshot.setProject path fun p => { p with domains := retained }

/-- A denial that took effect: what it saw, what it wrote and what it reports. -/
structure Denial (project : Option Bytes) (names : List PolicyName) (store seen store' : Store)
    (snapshot : PolicySnapshot) (report : DenyReport PolicyName) : Prop where
  same : Unchanged (LiveKept store.runs) store seen
  inspected : ∃ s, snapshotLocked.exec s = (.ok snapshot, seen)
  replaced : Replaced (scopeFile project) (domainsText (left store project names (scopeFile project)))
    seen store'
  distinct : (left store project names (scopeFile project)).Nodup
  remaining : report.remaining = names.map fun name => ⟨name,
    otherSources (afterDenial snapshot project (left store project names (scopeFile project))) project
      name []⟩

theorem left_of_read {store : Store} {project : Option Bytes} {selected : List PolicyName}
    (names : List PolicyName)
    (h : readDomains (store.contents (scopeFile project)) = .ok selected) :
    left store project names (scopeFile project) = selected.filter (· ∉ names) := by
  rw [left, entriesOf_eq h]
  exact List.filter_congr fun name _ => by simp

theorem nodup_left_of_read {store : Store} {project : Option Bytes} {selected : List PolicyName}
    (names : List PolicyName)
    (h : readDomains (store.contents (scopeFile project)) = .ok selected) :
    (left store project names (scopeFile project)).Nodup := by
  rw [left_of_read names h]
  exact (denotes_domain.nodup h).filter _

theorem denial_of_deny {store store' : Store} {project : Option Bytes} {domains : List Bytes}
    {names : List PolicyName} {report : DenyReport PolicyName} (hnames : normalizeDomains domains = .ok names)
    (h : (deny project domains).exec store = (.ok report, store')) (hdone : report.missing = []) :
    ∃ seen snapshot, Denial project names store seen store' snapshot report := by
  obtain ⟨_, s₀, hinput, h⟩ := exec_bind_eq_ok.mp h
  obtain ⟨hnormal, hstore⟩ := ofInput_eq_ok.mp hinput
  obtain rfl := Except.ok.inj (hnames.symm.trans hnormal)
  rw [hstore] at h
  obtain ⟨s₁, hensured, h⟩ := exec_locked_eq_ok h
  obtain ⟨snapshot, seen, hsnapshot, h⟩ := exec_bind_eq_ok.mp h
  have hsame := keepsFiles_snapshotLocked s₁ (unchanged_live hensured)
  rw [hsnapshot] at hsame
  refine ⟨seen, snapshot, ?_⟩
  cases project with
  | none =>
    obtain ⟨s, s₃, hget, hread⟩ := exec_bind_eq_ok.mp h
    obtain ⟨⟩ := hget
    simp only [exec_bind_eq_ok, present_eq_ok, ofInput_eq_ok] at hread
    obtain ⟨contents, s₄, ⟨hcontents, rfl⟩, selected, s₅, ⟨hselected, rfl⟩, hdeny⟩ := hread
    obtain ⟨-, hwrite, hremaining⟩ := denyEntries_done hdeny hdone
    have hfile : store.contents (scopeFile none) = contents := by
      rw [← hsame.contents]
      show s₅.global.getD [] = contents
      rw [hcontents, Option.getD_some]
    rw [← hfile] at hselected
    refine ⟨hsame, ⟨s₁, hsnapshot⟩, ?_, nodup_left_of_read names hselected, ?_⟩
    · rw [left_of_read names hselected]
      exact replaced_writeGlobal hwrite
    · rw [left_of_read names hselected]
      exact hremaining
  | some path =>
    obtain ⟨-, hwrite, hremaining⟩ := denyEntries_done h hdone
    obtain ⟨hstored, hwrite⟩ := assertStored_eq_ok hwrite
    obtain ⟨found, hfound⟩ := Option.isSome_iff_exists.mp hstored
    obtain ⟨dir, hdir, hdomains, -⟩ := project?_of_storedProject hsnapshot hfound
    rw [hfound] at hwrite hremaining
    have hfile : store.contents (scopeFile (some path)) = dir.allow := by
      rw [← hsame.contents]
      show ((seen.project? (Host.keyForBytes path)).map ProjectDir.allow).getD [] = dir.allow
      rw [hdir]
      rfl
    rw [← hfile] at hdomains
    refine ⟨hsame, ⟨s₁, hsnapshot⟩, ?_, nodup_left_of_read names hdomains, ?_⟩
    · rw [left_of_read names hdomains]
      exact replaced_writeProject hdir hwrite
    · rw [left_of_read names hdomains]
      exact hremaining

section

variable {project : Option Bytes} {names : List PolicyName} {store seen store' : Store}
  {snapshot : PolicySnapshot} {report : DenyReport PolicyName}
  (hdenial : Denial project names store seen store' snapshot report)

include hdenial

/-- Every file holds afterwards what is left of it. -/
theorem Denial.entriesOf_after (key : Option Bytes) :
    entriesOf (store'.contents ⟨key, .domain⟩) = left store project names ⟨key, .domain⟩ := by
  by_cases hfile : (⟨key, .domain⟩ : ScopeFile) = scopeFile project
  · rw [hfile, hdenial.replaced.contents]
    exact entriesOf_eq (denotes_domain.read_write hdenial.distinct)
  · rw [hdenial.replaced.others _ hfile, hdenial.same.contents, left]
    exact (List.filter_eq_self.mpr fun name _ => by simp [hfile]).symm

theorem Denial.written (hw : store.Written) : ∀ dir ∈ store'.runs, dir.Written := by
  intro dir hdir
  rw [hdenial.replaced.runs] at hdir
  exact hw.runs dir (hdenial.same.runs.sublist.subset hdir)

theorem Denial.domainFile (hw : store.Written) (key : Option Bytes) :
    DomainFile (store'.contents ⟨key, .domain⟩) := by
  by_cases hfile : (⟨key, .domain⟩ : ScopeFile) = scopeFile project
  · rw [hfile, hdenial.replaced.contents]
    exact ⟨_, rfl⟩
  · rw [hdenial.replaced.others _ hfile, hdenial.same.contents]
    exact hw.contents key

/-- A run that is left was inspected, with a project of the snapshot. -/
theorem Denial.runRead {dir : RunDir} (hdir : dir ∈ store'.runs) : ∃ run ∈ snapshot.runs,
    ∃ p ∈ snapshot.projects, run.projectKey = dir.key ∧ p.path = dir.projectPath ∧
      p.domains = entriesOf (store.contents ⟨some dir.key, .domain⟩) ∧
      ∀ name, name ∈ entriesOf dir.run → .run dir.id ∈ sourcesOf run.effective name := by
  obtain ⟨s, hsnapshot⟩ := hdenial.inspected
  obtain ⟨-, -, -, -, -, -, hprojects, runs, hperm, hruns⟩ := snapshotLocked_eq_ok hsnapshot
  rw [hdenial.replaced.runs] at hdir
  obtain ⟨run, hrun, hactive⟩ := exists_right_of_forall₂ hruns hdir
  obtain ⟨p, hp, bases, allowed, granted, authorities, hread⟩ := activeRun_eq_ok hactive
  obtain ⟨pd, hpd, hkey, hdomains, -⟩ := mem_projects hprojects hp
  have hrunKey : run.projectKey = dir.key := readTrimmed_eq_ok hread.key
  refine ⟨run, hperm.mem_iff.mpr hrun, p, hp, hrunKey, hread.path, ?_, fun name hname => ?_⟩
  · have hcontents : store.contents ⟨some dir.key, .domain⟩ = pd.allow := by
      rw [← hdenial.same.contents, Store.contents_domain, ← hrunKey, ← hread.projectKey, ← hkey,
        project?_of_mem hpd]
      rfl
    rw [hcontents, entriesOf_eq hdomains]
  · rw [entriesOf_eq hread.runAllow] at hname
    rw [hread.effective, mem_sourcesOf_resolveEntries]
    exact ⟨(granted, .run dir.id), by simp, hname, rfl⟩

theorem Denial.global_snapshot : snapshot.global = entriesOf (store.contents ⟨none, .domain⟩) := by
  obtain ⟨s, hsnapshot⟩ := hdenial.inspected
  obtain ⟨global, -, hglobal, -, hread, -⟩ := snapshotLocked_eq_ok hsnapshot
  rw [← hdenial.same.contents]
  show _ = entriesOf (seen.global.getD [])
  rw [hglobal, Option.getD_some, entriesOf_eq hread]

end

/-! ## What a denial closes -/

/-- The denial reaches the run. -/
def RunDir.Affected (dir : RunDir) (project : Option Bytes) : Prop :=
  ∀ path ∈ project, Host.keyForBytes path = dir.key

theorem affected_everywhere (dir : RunDir) : dir.Affected none := by
  intro path h
  cases h

/-- No layer of the run is named among the sources. -/
structure RunDir.Unreported (dir : RunDir) (sources : List Bytes) : Prop where
  global : ascii "global" ∉ sources
  project : ascii "project:" ++ quotePathBytes dir.projectPath ∉ sources
  run : ascii "run:" ++ dir.id ∉ sources

/-- No name in the launch snapshots of the run matches the host, and no other name than the denied one
that is left in its files. -/
structure RunDir.Uncovered (dir : RunDir) (store : Store) (project : Option Bytes)
    (names : List PolicyName) (domain : PolicyName) (host : PublicHost) : Prop where
  launch : ∀ name, name ∈ entriesOf dir.base ∨ name ∈ entriesOf dir.harnessAllow →
    ¬ name.entry.Matches host
  others : ∀ name ≠ domain, name ∈ left store project names ⟨none, .domain⟩ ∨
    name ∈ left store project names ⟨some dir.key, .domain⟩ ∨ name ∈ entriesOf dir.run →
      ¬ name.entry.Matches host

/-- **What is not reported is gone**: no file of the run, apart from its launch snapshots, holds a denied
name that has no reported source in it. -/
theorem Denial.gone {project : Option Bytes} {names : List PolicyName} {store seen store' : Store}
    {snapshot : PolicySnapshot} {report : DenyReport PolicyName}
    (hdenial : Denial project names store seen store' snapshot report) {domain : PolicyName}
    {sources : List Bytes} (hdomain : ⟨domain, sources⟩ ∈ report.remaining) {dir : RunDir}
    (hdir : dir ∈ store'.runs) (haffected : dir.Affected project) (hunreported : dir.Unreported sources) :
    domain ∉ left store project names ⟨none, .domain⟩ ∧
      domain ∉ left store project names ⟨some dir.key, .domain⟩ ∧ domain ∉ entriesOf dir.run := by
  rw [hdenial.remaining] at hdomain
  obtain ⟨name, hname, heq⟩ := List.mem_map.mp hdomain
  obtain ⟨hdenied, hsources⟩ := DenyEntry.mk.inj heq
  subst hdenied hsources
  obtain ⟨run, hrun, p, hp, hkey, hpath, hdomains, hsource⟩ := hdenial.runRead hdir
  have hselected : name ∉ left store project names (scopeFile project) := by
    intro hmem
    simpa [hname] using (List.mem_filter.mp hmem).2
  refine ⟨fun hmem => ?_, fun hmem => ?_, fun hmem => ?_⟩
  · cases project with
    | none => exact hselected hmem
    | some path =>
      refine hunreported.global (global_mem_otherSources ?_)
      show name ∈ snapshot.global
      rw [hdenial.global_snapshot]
      exact (List.mem_filter.mp hmem).1
  · cases project with
    | none =>
      refine hunreported.project ?_
      rw [← hpath]
      refine granting_mem_otherSources (by simp [ascii]) (project_mem_granting hp ?_)
      rw [hdomains]
      exact (List.mem_filter.mp hmem).1
    | some path =>
      rw [← haffected path rfl] at hmem
      exact hselected hmem
  · refine hunreported.run (granting_mem_otherSources (by simp [ascii]) ?_)
    have hlisted : run ∈ (afterDenial snapshot project
        (left store project names (scopeFile project))).runs := by
      cases project <;> exact hrun
    exact run_mem_granting hlisted (fun path hpath => (haffected path hpath).trans hkey.symm)
      (hsource _ hmem)

theorem Denial.closes_iff {project : Option Bytes} {names : List PolicyName} {store seen store' : Store}
    {snapshot : PolicySnapshot} {report : DenyReport PolicyName}
    (hdenial : Denial project names store seen store' snapshot report) (hw : store.Written)
    {domain : PolicyName} {sources : List Bytes} (hdomain : ⟨domain, sources⟩ ∈ report.remaining)
    {dir : RunDir} (hdir : dir ∈ store'.runs) (haffected : dir.Affected project)
    (hunreported : dir.Unreported sources) {files : List PolicyFile} {mode : PolicyFile}
    (hfiles : List.Forall₂ PolicyFile.Holds files (dir.allowlists store'))
    (hmode : mode.mode = some .enforce) (host : PublicHost) :
    (Proxy.PolicyReader.decidePublicLive files mode host).allowed = false ↔
      dir.Uncovered store project names domain host := by
  obtain ⟨hglobal, hproject, hrun⟩ := hdenial.gone hdomain hdir haffected hunreported
  have hwritten := hdenial.written hw dir hdir
  have hfile := hdenial.domainFile hw
  have hdomains : ∀ c ∈ dir.allowlists store', DomainFile c := by
    intro c hc
    simp only [RunDir.allowlists, List.mem_cons, List.not_mem_nil, or_false] at hc
    rcases hc with rfl | rfl | rfl | rfl | rfl
    · exact hwritten.base
    · exact hwritten.harnessAllow
    · exact hfile none
    · exact hfile (some dir.key)
    · exact hwritten.run
  rw [← Bool.not_eq_true, enforced_iff hfiles (by simp [RunDir.allowlists]) hdomains hmode host]
  simp only [RunDir.allowlists, List.exists_mem_cons_iff, List.not_mem_nil, false_and, exists_false,
    or_false, hdenial.entriesOf_after]
  constructor
  · intro hnone
    refine ⟨fun name hname hm => ?_, fun name _ hname hm => ?_⟩
    · refine hnone ?_
      rcases hname with hname | hname
      · exact .inl ⟨name, hname, hm⟩
      · exact .inr (.inl ⟨name, hname, hm⟩)
    · refine hnone (.inr (.inr ?_))
      rcases hname with hname | hname | hname
      · exact .inl ⟨name, hname, hm⟩
      · exact .inr (.inl ⟨name, hname, hm⟩)
      · exact .inr (.inr ⟨name, hname, hm⟩)
  · rintro hu (⟨name, hname, hm⟩ | ⟨name, hname, hm⟩ | ⟨name, hname, hm⟩ | ⟨name, hname, hm⟩ |
      ⟨name, hname, hm⟩)
    · exact hu.launch name (.inl hname) hm
    · exact hu.launch name (.inr hname) hm
    · exact hu.others name (fun heq => hglobal (heq ▸ hname)) (.inl hname) hm
    · exact hu.others name (fun heq => hproject (heq ▸ hname)) (.inr (.inl hname)) hm
    · exact hu.others name (fun heq => hrun (heq ▸ hname)) (.inr (.inr hname)) hm

/-- **A denial whose report names no layer of a run closes the host for it exactly when no other name
covers the host.** -/
theorem deny_closes_iff {store store' : Store} {project : Option Bytes} {domains : List Bytes}
    {names : List PolicyName} {report : DenyReport PolicyName} (hw : store.Written)
    (hnames : normalizeDomains domains = .ok names)
    (hdeny : (deny project domains).exec store = (.ok report, store')) (hdone : report.missing = [])
    {domain : PolicyName} {sources : List Bytes} (hdomain : ⟨domain, sources⟩ ∈ report.remaining)
    {dir : RunDir} (hdir : dir ∈ store'.runs) (haffected : dir.Affected project)
    (hunreported : dir.Unreported sources) {files : List PolicyFile} {mode : PolicyFile}
    (hfiles : List.Forall₂ PolicyFile.Holds files (dir.allowlists store'))
    (hmode : mode.mode = some .enforce) (host : PublicHost) :
    (Proxy.PolicyReader.decidePublicLive files mode host).allowed = false ↔
      dir.Uncovered store project names domain host := by
  obtain ⟨seen, snapshot, hdenial⟩ := denial_of_deny hnames hdeny hdone
  exact hdenial.closes_iff hw hdomain hdir haffected hunreported hfiles hmode host

end

/-! ## A parent domain -/

/-- A host without harnesses on which every file can be replaced. -/
local instance plainHost : Host where
  domainToAscii _ := none
  keyForBytes path := path
  harnesses := []
  replaceError _ _ := none

/-- The names `docs.example` and `example`. -/
def docsExample : PolicyName := ⟨ascii "docs.example", by decide +kernel, by decide +kernel⟩

def exampleDomain : PolicyName := ⟨ascii "example", by decide +kernel, by decide +kernel⟩

/-- A run without grants of its own. -/
def parentRun : RunDir where
  id := ascii "1-1"
  leased := true
  harness := ascii "agent"
  projectKey := ascii "/p"
  projectPath := ascii "/p"
  base := []
  harnessAllow := []
  run := []
  loopback := []
  mode := some (modeFile .enforce)

/-- `docs.example` is granted everywhere, and `example` in one project. -/
def parentStore : Store where
  global := some (domainsText [docsExample])
  globalLoopback := some []
  log := some []
  projects := [{ key := ascii "/p", path := ascii "/p", allow := domainsText [exampleDomain], loopback := [] }]
  runs := [parentRun]
  distinct := List.nodup_singleton _

theorem parentStore_written : parentStore.Written where
  global _ h := Option.mem_some_iff.mp h ▸ ⟨[docsExample], rfl⟩
  globalLoopback _ h := Option.mem_some_iff.mp h ▸ loopbackFile_nil
  projects _ h := List.mem_singleton.mp h ▸ ⟨⟨[exampleDomain], rfl⟩, loopbackFile_nil⟩
  runs _ h := List.mem_singleton.mp h ▸ ⟨domainFile_nil, domainFile_nil, domainFile_nil, loopbackFile_nil⟩

theorem parent_denied : ∃ report store', (deny none [docsExample.text]).exec parentStore =
    (.ok report, store') ∧ report.missing = [] ∧ ⟨docsExample, []⟩ ∈ report.remaining := by
  have heval : ((deny none [docsExample.text]).exec parentStore).1.toOption.any (fun report =>
      report.missing.isEmpty && report.remaining.any fun e => e.entry = docsExample && e.sources.isEmpty) =
        true := by
    decide +kernel
  obtain ⟨report, hok, hreport⟩ := (Option.any_eq_true _ _).mp heval
  rcases hexec : (deny none [docsExample.text]).exec parentStore with ⟨error | report', store'⟩
  · rw [hexec] at hok
    cases hok
  · rw [hexec] at hok
    obtain rfl := Option.some.inj hok
    rw [Bool.and_eq_true, List.isEmpty_iff, List.any_eq_true] at hreport
    obtain ⟨hmissing, entry, hentry, h⟩ := hreport
    rw [Bool.and_eq_true, decide_eq_true_eq, List.isEmpty_iff] at h
    obtain ⟨hname, hsources⟩ := h
    refine ⟨report', store', rfl, hmissing, ?_⟩
    rw [← hname, ← hsources]
    exact hentry

/-- The host `docs.example`. -/
def docsHost : PublicHost := .dns ⟨docsExample.text, by decide +kernel, by decide +kernel⟩

/-- Another name that is left in the project of a run, and matches the host, covers it. -/
theorem not_uncovered {dir : RunDir} {store : Store} {project : Option Bytes} {names : List PolicyName}
    {domain : PolicyName} {host : PublicHost} (name : PolicyName) (hne : name ≠ domain)
    (hleft : name ∈ left store project names ⟨some dir.key, .domain⟩)
    (hmatched : Proxy.PublicPolicySnapshot.matched { mode := .enforce, entries := [name.entry] } host =
      true) : ¬ dir.Uncovered store project names domain host := by
  intro hu
  obtain ⟨entry, hentry, hm⟩ := (Proxy.PublicPolicySnapshot.matched_iff _ _).mp hmatched
  rw [List.mem_singleton.mp hentry] at hm
  exact hu.others name hne (.inr (.inl hleft)) hm

theorem parent_covers : ¬ parentRun.Uncovered parentStore none [docsExample] docsExample docsHost := by
  refine not_uncovered exampleDomain (by decide +kernel) ?_ (by decide +kernel)
  have hread : entriesOf (parentStore.contents ⟨some parentRun.key, .domain⟩) = [exampleDomain] :=
    entriesOf_eq (denotes_domain.read_write (List.nodup_singleton _))
  rw [left, hread]
  decide +kernel

/-- A file with the given contents. -/
def fileOf (contents : Bytes) : PolicyFile := ⟨[], .opened true contents.length (some contents)⟩

theorem fileOf_holds {contents : Bytes} (h : DomainFile contents)
    (hlength : contents.length ≤ Proxy.maxPolicyBytes) : (fileOf contents).Holds contents := by
  obtain ⟨names, rfl⟩ := h
  exact .mk hlength hlength (sharedDomains.isUtf8 names)

theorem enforce_mode : (fileOf (ascii "enforce\n")).mode = some .enforce := by decide +kernel

/-- What the files of the run hold once `docs.example` is denied everywhere: nothing but `example`. -/
theorem parent_allowlists {store' seen : Store} {snapshot : PolicySnapshot} {report : DenyReport PolicyName}
    (h : Denial none [docsExample] parentStore seen store' snapshot report) :
    parentRun.allowlists store' = [[], [], [], domainsText [exampleDomain], []] := by
  have hglobal : store'.contents ⟨none, .domain⟩ = [] := by
    have hread : entriesOf (parentStore.contents ⟨none, .domain⟩) = [docsExample] :=
      entriesOf_eq (denotes_domain.read_write (List.nodup_singleton _))
    have hnone : left parentStore none [docsExample] (scopeFile none) = [] := by
      rw [show scopeFile none = ⟨none, .domain⟩ from rfl, left, hread]
      decide +kernel
    have hafter := h.replaced.contents
    rwa [hnone] at hafter
  have hproject : store'.contents ⟨some parentRun.key, .domain⟩ = domainsText [exampleDomain] := by
    rw [h.replaced.others _ (by simp [scopeFile]), h.same.contents]
    decide +kernel
  rw [RunDir.allowlists, hglobal, hproject]
  rfl

theorem parentRun_left {store' seen : Store} {snapshot : PolicySnapshot} {report : DenyReport PolicyName}
    (h : Denial none [docsExample] parentStore seen store' snapshot report) :
    parentRun ∈ store'.runs := by
  rw [h.replaced.runs]
  exact h.same.runs.leased parentRun (List.mem_singleton_self _) rfl

theorem parentFiles_hold {store' seen : Store} {snapshot : PolicySnapshot}
    {report : DenyReport PolicyName}
    (h : Denial none [docsExample] parentStore seen store' snapshot report) :
    List.Forall₂ PolicyFile.Holds ([[], [], [], domainsText [exampleDomain], []].map fileOf)
      (parentRun.allowlists store') := by
  rw [parent_allowlists h, List.forall₂_map_left_iff]
  refine List.forall₂_same.mpr fun c hc => fileOf_holds ?_ ?_
  · simp only [List.mem_cons, List.not_mem_nil, or_false] at hc
    rcases hc with rfl | rfl | rfl | rfl | rfl
    any_goals exact domainFile_nil
    exact ⟨[exampleDomain], rfl⟩
  · revert c
    decide +kernel

theorem normalizeDomains_docs : normalizeDomains [docsExample.text] = .ok [docsExample] := by
  rw [normalizeDomains, normalizeAll, List.mapM_cons, normalizeDomain_text]
  rfl

/-- **A parent domain goes unreported**: a denial that reports no remaining source does not close the
host. -/
theorem parent_unreported : ¬ ∀ [Host] (store store' : Store) (project : Option Bytes)
    (domains : List Bytes) (report : DenyReport PolicyName) (domain : PolicyName) (dir : RunDir)
    (files : List PolicyFile) (mode : PolicyFile) (host : PublicHost), store.Written →
    (deny project domains).exec store = (.ok report, store') → report.missing = [] →
    ⟨domain, []⟩ ∈ report.remaining → dir ∈ store'.runs → dir.Affected project →
    List.Forall₂ PolicyFile.Holds files (dir.allowlists store') → mode.mode = some .enforce →
    host.display = domain.text →
    (Proxy.PolicyReader.decidePublicLive files mode host).allowed = false := by
  intro hclaim
  obtain ⟨report, store', hdeny, hdone, hremaining⟩ := parent_denied
  obtain ⟨seen, snapshot, hdenial⟩ := denial_of_deny normalizeDomains_docs hdeny hdone
  have hdir := parentRun_left hdenial
  have hfiles := parentFiles_hold hdenial
  have hclosed := hclaim _ _ none _ report docsExample parentRun _ _ docsHost parentStore_written hdeny
    hdone hremaining hdir (affected_everywhere parentRun) hfiles enforce_mode rfl
  rw [hdenial.closes_iff parentStore_written hremaining hdir (affected_everywhere parentRun)
    ⟨List.not_mem_nil, List.not_mem_nil, List.not_mem_nil⟩ hfiles enforce_mode] at hclosed
  exact parent_covers hclosed

/-- The proxy of the run still lets `docs.example` through. -/
theorem deny_closes_parent : ∃ report store',
    (deny none [docsExample.text]).exec parentStore = (.ok report, store') ∧
    ⟨docsExample, []⟩ ∈ report.remaining ∧
    (Proxy.PolicyReader.decidePublicLive ([[], [], [], domainsText [exampleDomain], []].map fileOf)
      (fileOf (ascii "enforce\n")) docsHost).allowed = true := by
  obtain ⟨report, store', hdeny, hdone, hremaining⟩ := parent_denied
  obtain ⟨seen, snapshot, hdenial⟩ := denial_of_deny normalizeDomains_docs hdeny hdone
  refine ⟨report, store', hdeny, hremaining, ?_⟩
  rw [← Bool.not_eq_false, deny_closes_iff parentStore_written normalizeDomains_docs hdeny hdone
    hremaining (parentRun_left hdenial) (affected_everywhere parentRun)
    ⟨List.not_mem_nil, List.not_mem_nil, List.not_mem_nil⟩ (parentFiles_hold hdenial) enforce_mode]
  exact parent_covers

end Vhrn.Cli
