import Vhrn.Cli.PolicyStore

/-!
# Runs of the policy store

Whatever sequence of operations the command line performs on a store, with whatever arguments and
whether they succeed or fail, every domain file it leaves is `domainsText` of some names and every
loopback file is `loopbackText` of some authorities: `Store.Written`, kept by each operation
(`Op.keeps`) and so by every run (`written_run`).
-/

namespace Vhrn.Cli

/-! ## Files as the command line writes them -/

def DomainFile (contents : Bytes) : Prop := ∃ names, contents = domainsText names

def LoopbackFile (contents : Bytes) : Prop := ∃ authorities, contents = loopbackText authorities

structure ProjectDir.Written (dir : ProjectDir) : Prop where
  allow : DomainFile dir.allow
  loopback : LoopbackFile dir.loopback

structure RunDir.Written (dir : RunDir) : Prop where
  base : DomainFile dir.base
  harnessAllow : DomainFile dir.harnessAllow
  run : DomainFile dir.run
  loopback : LoopbackFile dir.loopback

structure Store.Written (store : Store) : Prop where
  global : ∀ contents ∈ store.global, DomainFile contents
  globalLoopback : ∀ contents ∈ store.globalLoopback, LoopbackFile contents
  projects : ∀ dir ∈ store.projects, dir.Written
  runs : ∀ dir ∈ store.runs, dir.Written

theorem domainFile_nil : DomainFile [] := ⟨[], rfl⟩

theorem loopbackFile_nil : LoopbackFile [] := ⟨[], rfl⟩

theorem Store.written_empty : Store.empty.Written where
  global _ h := by cases h
  globalLoopback _ h := by cases h
  projects _ h := by cases h
  runs _ h := by cases h

/-- An optional file that is replaced. -/
theorem forall_mem_some {p : Bytes → Prop} {contents : Bytes} (h : p contents) :
    ∀ c ∈ some contents, p c := fun _ hc => Option.mem_some_iff.mp hc ▸ h

theorem domainFile_mutateFile [Host] {contents contents' : Bytes} {add remove : List PolicyName}
    (h : mutateFile contents add remove = .ok contents') : DomainFile contents' := by
  unfold mutateFile at h
  cases hread : readDomains contents with
  | error e => rw [hread] at h; cases h
  | ok names =>
    rw [hread] at h
    cases hm : mutateEntries PolicyName.text names add remove with
    | error e => simp only [bind, Except.bind, hm] at h; cases h
    | ok retained =>
      simp only [bind, Except.bind, hm] at h
      exact ⟨retained, (Except.ok.inj h).symm⟩

theorem loopbackFile_mutateLoopbackFile {contents contents' : Bytes}
    {add remove : List LoopbackAuthority}
    (h : mutateLoopbackFile contents add remove = .ok contents') : LoopbackFile contents' := by
  unfold mutateLoopbackFile at h
  cases hread : readLoopbackAuthorities contents with
  | error e => rw [hread] at h; cases h
  | ok authorities =>
    rw [hread] at h
    cases hm : mutateEntries LoopbackAuthority.display authorities add remove with
    | error e => simp only [bind, Except.bind, hm] at h; cases h
    | ok retained =>
      simp only [bind, Except.bind, hm] at h
      exact ⟨retained, (Except.ok.inj h).symm⟩

theorem domainFile_writeDomains [Host] {domains : List Bytes} {contents : Bytes}
    (h : writeDomains domains = .ok contents) : DomainFile contents := by
  unfold writeDomains at h
  cases hn : normalizeDomains domains with
  | error e => rw [hn] at h; cases h
  | ok names =>
    rw [hn] at h
    exact ⟨names, (Except.ok.inj h).symm⟩

/-! ## Each operation keeps them -/

section

variable {α β : Type} {P : Store → Prop}

theorem keeps_ofInput_bind {x : Except InputError α} {f : α → StoreM β}
    (hf : ∀ a, x = .ok a → Keeps P (f a)) : Keeps P (ofInput x >>= f) := by
  refine Keeps.liftExcept_bind fun a ha => hf a ?_
  cases x with
  | error e => cases ha
  | ok b => exact congrArg Except.ok (Except.ok.inj ha)

theorem keeps_ofInput (x : Except InputError α) : Keeps P (ofInput x) := Keeps.liftExcept _

theorem keeps_present (contents : Option Bytes) : Keeps P (present contents) := by
  cases contents with
  | none => exact Keeps.throw _
  | some contents => exact Keeps.pure _

theorem keeps_listedProject [Host] (dir : ProjectDir) : Keeps P (listedProject dir) := by
  refine Keeps.ite (Keeps.bind (Keeps.throw _) fun _ => ?_) ?_
  all_goals
    exact keeps_ofInput_bind fun _ _ => keeps_ofInput_bind fun _ _ => Keeps.pure _

theorem keeps_projects [Host] (dirs : List ProjectDir) : Keeps P (projects dirs) :=
  Keeps.bind (Keeps.mapM keeps_listedProject dirs) fun _ => Keeps.pure _

theorem keeps_activeRun [Host] (dir : RunDir) (global : List PolicyName)
    (loopback : List LoopbackAuthority) (projects : List PolicyProject) :
    Keeps P (activeRun dir global loopback projects) := by
  unfold activeRun
  refine Keeps.liftExcept_bind fun harness _ => Keeps.bind (keeps_present _) fun _ => ?_
  refine Keeps.liftExcept_bind fun mode _ => ?_
  refine Keeps.ite (Keeps.bind (Keeps.throw _) fun _ => ?_) ?_
  all_goals
    refine Keeps.liftExcept_bind fun key _ => ?_
    refine Keeps.ite (Keeps.bind (Keeps.throw _) fun _ => ?_) ?_
  all_goals
    split
    · exact Keeps.throw _
    · refine Keeps.ite (Keeps.bind (Keeps.throw _) fun _ => ?_) ?_
      all_goals
        exact keeps_ofInput_bind fun _ _ => keeps_ofInput_bind fun _ _ =>
          keeps_ofInput_bind fun _ _ => keeps_ofInput_bind fun _ _ =>
            keeps_ofInput_bind fun _ _ => Keeps.pure _

end

theorem keeps_reapRuns : Keeps Store.Written reapRuns :=
  Keeps.modify fun _ h => { h with runs := fun dir hd => h.runs dir (List.mem_of_mem_filter hd) }

theorem keeps_ensure : Keeps Store.Written ensure := by
  refine Keeps.modify fun store h => { h with global := ?_, globalLoopback := ?_ }
  · refine forall_mem_some ?_
    cases hg : store.global with
    | none => exact domainFile_nil
    | some contents => exact h.global contents hg
  · refine forall_mem_some ?_
    cases hg : store.globalLoopback with
    | none => exact loopbackFile_nil
    | some contents => exact h.globalLoopback contents hg

theorem keeps_locked {α : Type} {f : StoreM α} (hf : Keeps Store.Written f) :
    Keeps Store.Written (locked f) := Keeps.bind keeps_ensure fun _ => hf

theorem Store.Written.setProject {store : Store} (h : store.Written) {key : Bytes}
    {f : ProjectDir → ProjectDir} {hf : ∀ dir, (f dir).key = dir.key}
    (hw : ∀ dir, dir.Written → (f dir).Written) : (store.setProject key f hf).Written := by
  refine { h with projects := fun dir' hdir' => ?_ }
  obtain ⟨dir, hdir, rfl⟩ := List.mem_map.mp hdir'
  split
  · exact hw dir (h.projects dir hdir)
  · exact h.projects dir hdir

theorem keeps_denyEntries {α : Type} [DecidableEq α] {project : Option Bytes}
    {snapshot : PolicySnapshot} {selected entries : List α}
    {sources : PolicySnapshot → α → Bytes → List Bytes} {after : List α → PolicySnapshot}
    {write : List α → StoreM Unit} (hw : ∀ retained, Keeps Store.Written (write retained)) :
    Keeps Store.Written
      (denyEntries project snapshot selected entries sources after write) := by
  refine Keeps.ite (Keeps.pure _) (Keeps.bind (hw _) fun _ => Keeps.pure _)

section

variable [Host]

theorem keeps_writeAtomic {path contents : Bytes} {write : StoreM Unit}
    (hw : Keeps Store.Written write) : Keeps Store.Written (writeAtomic path contents write) := by
  unfold writeAtomic
  split
  · exact Keeps.throw _
  · exact hw

theorem keeps_writeGlobal {contents : Bytes} (h : DomainFile contents) :
    Keeps Store.Written (writeGlobal contents) :=
  keeps_writeAtomic <| Keeps.modify fun _ hs => { hs with global := forall_mem_some h }

theorem keeps_writeGlobalLoopback {contents : Bytes} (h : LoopbackFile contents) :
    Keeps Store.Written (writeGlobalLoopback contents) :=
  keeps_writeAtomic <| Keeps.modify fun _ hs => { hs with globalLoopback := forall_mem_some h }

theorem keeps_writeProject {key contents : Bytes} (h : DomainFile contents) :
    Keeps Store.Written (writeProject key contents) :=
  keeps_writeAtomic <| Keeps.modify fun _ hs => hs.setProject fun _ hd => { hd with allow := h }

theorem keeps_writeProjectLoopback {key contents : Bytes} (h : LoopbackFile contents) :
    Keeps Store.Written (writeProjectLoopback key contents) :=
  keeps_writeAtomic <| Keeps.modify fun _ hs => hs.setProject fun _ hd => { hd with loopback := h }

theorem keeps_assertStored {P : Store → Prop} (snapshot : PolicySnapshot) (path : Bytes) :
    Keeps P (assertStored snapshot path) := Keeps.ite (Keeps.throw _) (Keeps.pure _)

end

theorem keeps_resetLogIfIdle : Keeps Store.Written resetLogIfIdle := by
  refine Keeps.modify fun store h => ?_
  split
  · exact { h with }
  · exact h

theorem keeps_retire (id : Bytes) : Keeps Store.Written (retire id) :=
  Keeps.modify fun _ h => { h with runs := fun dir hd => h.runs dir (List.mem_of_mem_filter hd) }

section

variable [Host]

theorem keeps_snapshotLocked : Keeps Store.Written snapshotLocked := by
  refine Keeps.bind keeps_reapRuns fun _ => Keeps.get_bind fun store _ => ?_
  refine Keeps.bind (keeps_present _) fun _ => keeps_ofInput_bind fun _ _ => ?_
  refine Keeps.bind (keeps_present _) fun _ => keeps_ofInput_bind fun _ _ => ?_
  refine Keeps.bind (keeps_projects _) fun _ => ?_
  exact Keeps.bind (Keeps.mapM (fun dir => keeps_activeRun dir _ _ _) _) fun _ => Keeps.pure _

theorem keeps_projectFiles (path : Bytes) : Keeps Store.Written (projectFiles path) := by
  refine Keeps.get_bind fun store h => ?_
  split
  · exact Keeps.ite (Keeps.bind (Keeps.throw _) fun _ => Keeps.pure _) (Keeps.pure _)
  · refine Keeps.bind (Keeps.set { h with projects := fun dir hd => ?_ }) fun _ => Keeps.pure _
    rcases List.mem_append.mp hd with hd | hd
    · exact h.projects dir hd
    · obtain rfl := List.mem_singleton.mp hd
      exact ⟨domainFile_nil, loopbackFile_nil⟩

theorem keeps_mutateGlobal (add remove : List Bytes) :
    Keeps Store.Written (mutateGlobal add remove) := by
  refine keeps_ofInput_bind fun batch _ => keeps_locked <| Keeps.get_bind fun store _ => ?_
  refine Keeps.bind (keeps_present _) fun _ => keeps_ofInput_bind fun contents hc => ?_
  exact keeps_writeGlobal (domainFile_mutateFile hc)

theorem keeps_mutateProject (project : Bytes) (add remove : List Bytes) :
    Keeps Store.Written (mutateProject project add remove) := by
  refine keeps_ofInput_bind fun batch _ => keeps_locked <| Keeps.bind (keeps_projectFiles _) ?_
  exact fun _ => keeps_ofInput_bind fun _ hc => keeps_writeProject (domainFile_mutateFile hc)

theorem keeps_mutateLoopbackGlobal (add remove : List Bytes) :
    Keeps Store.Written (mutateLoopbackGlobal add remove) := by
  refine keeps_ofInput_bind fun batch _ => keeps_locked <| Keeps.get_bind fun store _ => ?_
  refine Keeps.bind (keeps_present _) fun _ => keeps_ofInput_bind fun contents hc => ?_
  exact keeps_writeGlobalLoopback (loopbackFile_mutateLoopbackFile hc)

theorem keeps_mutateLoopbackProject (project : Bytes) (add remove : List Bytes) :
    Keeps Store.Written (mutateLoopbackProject project add remove) := by
  refine keeps_ofInput_bind fun batch _ => keeps_locked <| Keeps.bind (keeps_projectFiles _) ?_
  exact fun _ => keeps_ofInput_bind fun _ hc =>
    keeps_writeProjectLoopback (loopbackFile_mutateLoopbackFile hc)

theorem keeps_writeModes (mode : Proxy.Mode) (dirs : List RunDir) :
    Keeps Store.Written (writeModes mode dirs) := by
  induction dirs with
  | nil => exact Keeps.pure _
  | cons dir dirs ih =>
    unfold writeModes
    split
    · exact ih
    · exact Keeps.throw _
    · refine Keeps.bind (Keeps.modify fun store h => { h with runs := fun run hr => ?_ }) fun _ =>
        Keeps.bind ih fun _ => Keeps.pure _
      obtain ⟨run', hr', rfl⟩ := List.mem_map.mp hr
      split
      · exact { h.runs run' hr' with }
      · exact h.runs run' hr'

theorem keeps_setActiveMode (mode : Proxy.Mode) : Keeps Store.Written (setActiveMode mode) := by
  refine keeps_locked <| Keeps.bind keeps_reapRuns fun _ => Keeps.get_bind fun _ _ => ?_
  exact Keeps.liftExcept_bind fun _ _ => keeps_writeModes _ _

theorem keeps_deny (project : Option Bytes) (domains : List Bytes) :
    Keeps Store.Written (deny project domains) := by
  refine keeps_ofInput_bind fun names _ => keeps_locked <| Keeps.bind keeps_snapshotLocked ?_
  intro snapshot
  cases project with
  | none =>
    refine Keeps.get_bind fun store _ => Keeps.bind (keeps_present _) fun _ => ?_
    refine keeps_ofInput_bind fun selected _ => keeps_denyEntries fun retained => ?_
    exact keeps_writeGlobal ⟨retained, rfl⟩
  | some path =>
    refine keeps_denyEntries fun retained => ?_
    exact Keeps.bind (keeps_assertStored _ _) fun _ => keeps_writeProject ⟨retained, rfl⟩

theorem keeps_denyLoopback (project : Option Bytes) (authorities : List Bytes) :
    Keeps Store.Written (denyLoopback project authorities) := by
  refine keeps_ofInput_bind fun names _ => keeps_locked <| Keeps.bind keeps_snapshotLocked ?_
  intro snapshot
  cases project with
  | none =>
    refine keeps_denyEntries fun retained => ?_
    exact keeps_writeGlobalLoopback ⟨retained, rfl⟩
  | some path =>
    refine keeps_denyEntries fun retained => ?_
    exact Keeps.bind (keeps_assertStored _ _) fun _ => keeps_writeProjectLoopback ⟨retained, rfl⟩

theorem keeps_publishRun (id harness project : Bytes)
    (harnessDomains runDomains runLoopback : List Bytes) (mode : Proxy.Mode) :
    Keeps Store.Written
      (publishRun id harness project harnessDomains runDomains runLoopback mode) := by
  refine keeps_ofInput_bind fun harnessNames _ => keeps_ofInput_bind fun runNames _ => ?_
  refine keeps_ofInput_bind fun authorities _ => keeps_locked ?_
  refine Keeps.bind keeps_reapRuns fun _ => ?_
  refine Keeps.bind (Keeps.bind (keeps_projectFiles _) fun _ => Keeps.pure _) fun _ => ?_
  refine Keeps.bind keeps_resetLogIfIdle fun _ => keeps_ofInput_bind fun base hbase => ?_
  refine keeps_ofInput_bind fun harnessAllow hharness => keeps_ofInput_bind fun run hrun => ?_
  refine Keeps.get_bind fun store _ => Keeps.ite (Keeps.bind (Keeps.throw _) fun _ => ?_) ?_
  all_goals
    refine Keeps.modify fun store h => { h with runs := fun dir hd => ?_ }
    rcases List.mem_append.mp hd with hd | hd
    · exact h.runs dir hd
    · obtain rfl := List.mem_singleton.mp hd
      exact {
        base := domainFile_writeDomains hbase
        harnessAllow := domainFile_writeDomains hharness
        run := domainFile_writeDomains hrun
        loopback := ⟨authorities, rfl⟩ }

end

/-! ## Runs -/

/-- One operation on the store with its arguments as they were given. `exit` is the end of the process
that holds the lease of a run. -/
inductive Op
  | mutateGlobal (add remove : List Bytes)
  | mutateProject (project : Bytes) (add remove : List Bytes)
  | mutateLoopbackGlobal (add remove : List Bytes)
  | mutateLoopbackProject (project : Bytes) (add remove : List Bytes)
  | deny (project : Option Bytes) (domains : List Bytes)
  | denyLoopback (project : Option Bytes) (authorities : List Bytes)
  | publishRun (id harness project : Bytes) (harnessDomains runDomains runLoopback : List Bytes)
      (mode : Proxy.Mode)
  | setActiveMode (mode : Proxy.Mode)
  | retire (id : Bytes)
  | exit (id : Bytes)
  | snapshot

variable [Host]

def Op.run : Op → Store → Store
  | .mutateGlobal add remove, s => ((Cli.mutateGlobal add remove).exec s).2
  | .mutateProject project add remove, s => ((Cli.mutateProject project add remove).exec s).2
  | .mutateLoopbackGlobal add remove, s => ((Cli.mutateLoopbackGlobal add remove).exec s).2
  | .mutateLoopbackProject project add remove, s =>
    ((Cli.mutateLoopbackProject project add remove).exec s).2
  | .deny project domains, s => ((Cli.deny project domains).exec s).2
  | .denyLoopback project authorities, s => ((Cli.denyLoopback project authorities).exec s).2
  | .publishRun id harness project harnessDomains runDomains runLoopback mode, s =>
    ((Cli.publishRun id harness project harnessDomains runDomains runLoopback mode).exec s).2
  | .setActiveMode mode, s => ((Cli.setActiveMode mode).exec s).2
  | .retire id, s => ((Cli.retire id).exec s).2
  | .exit id, s =>
    { s with runs := s.runs.map fun dir => if dir.id = id then { dir with leased := false } else dir }
  | .snapshot, s => (Cli.snapshot.exec s).2

/-- The store after a sequence of operations from an empty one. -/
def storeAfter (ops : List Op) : Store := ops.foldl (fun s op => op.run s) Store.empty

theorem Op.keeps (op : Op) {s : Store} (h : s.Written) : (op.run s).Written := by
  cases op with
  | mutateGlobal add remove => exact keeps_mutateGlobal add remove s h
  | mutateProject project add remove => exact keeps_mutateProject project add remove s h
  | mutateLoopbackGlobal add remove => exact keeps_mutateLoopbackGlobal add remove s h
  | mutateLoopbackProject project add remove =>
    exact keeps_mutateLoopbackProject project add remove s h
  | deny project domains => exact keeps_deny project domains s h
  | denyLoopback project authorities => exact keeps_denyLoopback project authorities s h
  | publishRun id harness project harnessDomains runDomains runLoopback mode =>
    exact keeps_publishRun id harness project harnessDomains runDomains runLoopback mode s h
  | setActiveMode mode => exact keeps_setActiveMode mode s h
  | retire id => exact keeps_retire id s h
  | exit id =>
    refine { h with runs := fun dir hd => ?_ }
    obtain ⟨dir', hd', rfl⟩ := List.mem_map.mp hd
    split
    · exact { h.runs dir' hd' with }
    · exact h.runs dir' hd'
  | snapshot => exact keeps_locked keeps_snapshotLocked s h

/-- **Every file of the store is as the command line writes it, after any operations.** -/
theorem written_storeAfter (ops : List Op) : (storeAfter ops).Written := by
  unfold storeAfter
  generalize hs : Store.empty = s
  have h : s.Written := hs ▸ Store.written_empty
  clear hs
  induction ops generalizing s with
  | nil => exact h
  | cons op ops ih => exact ih (op.run s) (op.keeps h)

end Vhrn.Cli
