import Vhrn.Cli.ProxyAgreement

/-!
# Policy batches

A batch adds entries to the file of one scope and kind, or removes entries from it. It takes effect as
a whole or not at all: `Batch.Law` says what it leaves behind, for any contents of the files and
whatever replacement of a file fails. A denial inspects the published runs first, and with them removes
the runs whose process has ended (`denial_reaps_runs`).
-/

namespace Vhrn.Cli

/-! ## Lists of entries -/

section

variable {α β : Type} [DecidableEq α] [DecidableEq β]

/-- The values that are not in the list yet, each once and in order of appearance. -/
def fresh (old values : List α) : List α := (values.filter (· ∉ old)).foldl pushNew []

theorem nodup_pushNew {l : List α} (h : l.Nodup) (a : α) : (pushNew l a).Nodup := by
  unfold pushNew
  split
  · exact h
  · rename_i ha
    rw [← List.concat_eq_append]
    exact h.concat ha

theorem nodup_foldl_pushNew {l : List α} (h : l.Nodup) (values : List α) :
    (values.foldl pushNew l).Nodup := by
  induction values generalizing l with
  | nil => exact h
  | cons a values ih => exact ih (nodup_pushNew h a)

theorem foldl_pushNew_append (old new values : List α) : values.foldl pushNew (old ++ new) =
    old ++ (values.filter (· ∉ old)).foldl pushNew new := by
  induction values generalizing new with
  | nil => rfl
  | cons a values ih =>
    rw [List.foldl_cons]
    by_cases hold : a ∈ old
    · have hpush : pushNew (old ++ new) a = old ++ new :=
        if_pos (List.mem_append.mpr (.inl hold))
      rw [hpush, ih, List.filter_cons_of_neg (by simpa using hold)]
    · have hpush : pushNew (old ++ new) a = old ++ pushNew new a := by
        unfold pushNew
        by_cases hnew : a ∈ new
        · rw [if_pos (List.mem_append.mpr (.inr hnew)), if_pos hnew]
        · rw [if_neg (by simp [hold, hnew]), if_neg hnew, List.append_assoc]
      rw [hpush, ih, List.filter_cons_of_pos (by simpa using hold), List.foldl_cons]

/-- Adding to a list puts what is fresh after it. -/
theorem foldl_pushNew (old values : List α) : values.foldl pushNew old = old ++ fresh old values := by
  have h := foldl_pushNew_append old [] values
  rwa [List.append_nil] at h

/-- Adding values once more each does not matter. -/
theorem foldl_pushNew_foldl (old values : List α) :
    (values.foldl pushNew []).foldl pushNew old = values.foldl pushNew old := by
  have hgen (seen : List α) : (values.foldl pushNew seen).foldl pushNew old =
      values.foldl pushNew (seen.foldl pushNew old) := by
    induction values generalizing seen with
    | nil => rfl
    | cons a values ih =>
      rw [List.foldl_cons, ih, List.foldl_cons]
      congr 1
      by_cases ha : a ∈ seen
      · have hin : a ∈ seen.foldl pushNew old := mem_foldl_pushNew.mpr (.inr ha)
        rw [pushNew, if_pos ha, pushNew, if_pos hin]
      · rw [pushNew, if_neg ha, List.foldl_append]
        rfl
  exact hgen []

theorem foldl_pushNew_of_nodup {l : List α} (h : l.Nodup) : l.foldl pushNew [] = l := by
  have hgen (done rest : List α) (hd : (done ++ rest).Nodup) :
      rest.foldl pushNew done = done ++ rest := by
    induction rest generalizing done with
    | nil => exact (List.append_nil done).symm
    | cons a rest ih =>
      have ha : a ∉ done := fun ha => (List.nodup_append.mp hd).2.2 a ha a (by simp) rfl
      rw [List.foldl_cons, pushNew, if_neg ha, ih _ (by rwa [List.append_assoc]),
        List.append_assoc]
      rfl
  exact hgen [] l h

theorem map_foldl_pushNew {f : α → β} (hf : Function.Injective f) (old values : List α) :
    (values.foldl pushNew old).map f = (values.map f).foldl pushNew (old.map f) := by
  induction values generalizing old with
  | nil => rfl
  | cons a values ih =>
    rw [List.foldl_cons, ih, List.map_cons, List.foldl_cons]
    congr 1
    have hmem : f a ∈ old.map f ↔ a ∈ old := List.mem_map_of_injective hf
    unfold pushNew
    by_cases ha : a ∈ old
    · rw [if_pos ha, if_pos (hmem.mpr ha)]
    · rw [if_neg ha, if_neg (mt hmem.mp ha), List.map_append, List.map_singleton]

theorem map_filter_not_mem {f : α → β} (hf : Function.Injective f) (l remove : List α) :
    (l.filter (· ∉ remove)).map f = (l.map f).filter (· ∉ remove.map f) := by
  rw [List.filter_map]
  congr 1
  refine List.filter_congr fun a _ => ?_
  have hmem : f a ∈ remove.map f ↔ a ∈ remove := List.mem_map_of_injective hf
  exact decide_eq_decide.mpr (not_congr hmem.symm)

theorem map_fresh {f : α → β} (hf : Function.Injective f) (old values : List α) :
    (fresh old values).map f = fresh (old.map f) (values.map f) := by
  unfold fresh
  rw [map_foldl_pushNew hf, map_filter_not_mem hf]
  rfl

end

/-! ## Files and batches -/

inductive EntryKind
  | domain
  | loopback
  deriving DecidableEq

/-- A policy file of a scope: of all projects, or of the one with the given key. -/
structure ScopeFile where
  project : Option Bytes
  kind : EntryKind
  deriving DecidableEq

namespace Store

def project? (store : Store) (key : Bytes) : Option ProjectDir :=
  store.projects.find? fun dir => dir.key == key

/-- The contents of a file; a file that is not there holds nothing. -/
def contents (store : Store) : ScopeFile → Bytes
  | ⟨none, .domain⟩ => store.global.getD []
  | ⟨none, .loopback⟩ => store.globalLoopback.getD []
  | ⟨some key, .domain⟩ => ((store.project? key).map ProjectDir.allow).getD []
  | ⟨some key, .loopback⟩ => ((store.project? key).map ProjectDir.loopback).getD []

@[simp] theorem contents_domain (store : Store) (key : Bytes) : store.contents ⟨some key, .domain⟩ =
    ((store.project? key).map ProjectDir.allow).getD [] := rfl

@[simp] theorem contents_loopback (store : Store) (key : Bytes) :
    store.contents ⟨some key, .loopback⟩ =
      ((store.project? key).map ProjectDir.loopback).getD [] := rfl

end Store

/-- One policy operation with its arguments as they were given. `mutate` adds entries and removes
entries, `deny` removes them and reports what else grants them. -/
inductive Batch
  | mutate (kind : EntryKind) (project : Option Bytes) (add remove : List Bytes)
  | deny (kind : EntryKind) (project : Option Bytes) (entries : List Bytes)

inductive BatchOutcome
  | failed (error : StoreError)
  | missing
  | done

def DenyReport.outcome {α : Type} (report : DenyReport α) : BatchOutcome :=
  if report.missing.isEmpty then .done else .missing

section

variable [Host]

/-- The canonical text of an entry. -/
def EntryKind.normalize : EntryKind → Bytes → Except InputError Bytes
  | .domain, entry => (normalizeDomain entry).map PolicyName.text
  | .loopback, entry => (parseAuthority entry).map LoopbackAuthority.display

/-- The entry list of a file. -/
def EntryKind.entries : EntryKind → Bytes → Except InputError (List Bytes)
  | .domain, contents => (readDomains contents).map (List.map PolicyName.text)
  | .loopback, contents =>
    (readLoopbackAuthorities contents).map (List.map LoopbackAuthority.display)

namespace Batch

def kind : Batch → EntryKind
  | mutate kind .. => kind
  | deny kind .. => kind

/-- The file of the scope and kind of a batch. -/
def file : Batch → ScopeFile
  | mutate kind project .. => ⟨project.map Host.keyForBytes, kind⟩
  | deny kind project _ => ⟨project.map Host.keyForBytes, kind⟩

def added : Batch → List Bytes
  | mutate _ _ add _ => add
  | deny .. => []

def removed : Batch → List Bytes
  | mutate _ _ _ remove => remove
  | deny _ _ entries => entries

def run : Batch → StoreM BatchOutcome
  | mutate .domain none add remove => return (fun _ => .done) (← mutateGlobal add remove)
  | mutate .domain (some project) add remove =>
    return (fun _ => .done) (← mutateProject project add remove)
  | mutate .loopback none add remove => return (fun _ => .done) (← mutateLoopbackGlobal add remove)
  | mutate .loopback (some project) add remove =>
    return (fun _ => .done) (← mutateLoopbackProject project add remove)
  | deny .domain project entries => return (← Cli.deny project entries).outcome
  | deny .loopback project entries => return (← Cli.denyLoopback project entries).outcome

/-- The outcome of a batch and the store it leaves. -/
def exec (batch : Batch) (store : Store) : BatchOutcome × Store :=
  match batch.run.exec store with
  | (.ok outcome, store) => (outcome, store)
  | (.error error, store) => (.failed error, store)

end Batch

/-! ## What a batch leaves behind -/

local instance lawfulBEqBytes : LawfulBEq Bytes := inferInstance

/-- The list of a file after entries are added and others removed. -/
def changed (old add remove : List Bytes) : List Bytes :=
  (old ++ fresh old add).filter (· ∉ remove)

/-- Runs that are left when runs whose process has ended may have been removed. -/
structure LiveKept (runs runs' : List RunDir) : Prop where
  sublist : List.Sublist runs' runs
  leased : ∀ dir ∈ runs, dir.leased = true → dir ∈ runs'

/-- What a batch may do to the published runs: a mutation nothing, a denial the removal of runs whose
process has ended. -/
def Batch.RunsAfter : Batch → List RunDir → List RunDir → Prop
  | mutate .., runs, runs' => runs' = runs
  | deny .., runs, runs' => LiveKept runs runs'

/-- Files keep their contents, and runs are as allowed. -/
structure Unchanged (allowed : List RunDir → Prop) (store store' : Store) : Prop where
  contents : ∀ file, store'.contents file = store.contents file
  runs : allowed store'.runs

/-- One file has new contents, all others and the runs are unchanged. -/
structure Replaced (file : ScopeFile) (contents : Bytes) (store store' : Store) : Prop where
  contents : store'.contents file = contents
  others : ∀ other, other ≠ file → store'.contents other = store.contents other
  runs : store'.runs = store.runs

/-- The entries of a batch and those of its file before. -/
structure Batch.Reads (batch : Batch) (store : Store) (old add remove : List Bytes) : Prop where
  added : batch.added.mapM batch.kind.normalize = .ok add
  removed : batch.removed.mapM batch.kind.normalize = .ok remove
  before : batch.kind.entries (store.contents batch.file) = .ok old

/-- A batch took effect: its file holds the old entries with those of the batch added or removed. -/
structure Batch.Applied (batch : Batch) (store store' : Store) (old add remove : List Bytes) :
    Prop where
  reads : batch.Reads store old add remove
  present : ∀ entry ∈ remove, entry ∈ old ++ fresh old add
  after : batch.kind.entries (store'.contents batch.file) = .ok (changed old add remove)
  distinct : (changed old add remove).Nodup
  others : ∀ file, file ≠ batch.file → store'.contents file = store.contents file
  runs : batch.RunsAfter store.runs store'.runs

/-- What keeps a batch from taking effect: an entry that is not valid, a file that does not read, or an
entry to remove that is not in the file. -/
inductive Batch.Faulty (batch : Batch) (store : Store) : Prop
  | entry {entry : Bytes} (mem : entry ∈ batch.added ++ batch.removed)
      (invalid : ∀ text, batch.kind.normalize entry ≠ .ok text)
  | file (unread : ∀ old, batch.kind.entries (store.contents batch.file) ≠ .ok old)
  | absent {old add remove : List Bytes} {entry : Bytes} (reads : batch.Reads store old add remove)
      (mem : entry ∈ remove) (absent : entry ∉ old ++ fresh old add)

/-- What a batch does to the files of a store. -/
inductive Batch.Law (batch : Batch) (store : Store) : BatchOutcome × Store → Prop
  | failed {error : StoreError} {store' : Store}
      (same : Unchanged (batch.RunsAfter store.runs) store store') :
      Batch.Law batch store (.failed error, store')
  | missing {store' : Store} (same : Unchanged (batch.RunsAfter store.runs) store store') :
      Batch.Law batch store (.missing, store')
  | done {store' : Store} {old add remove : List Bytes}
      (applied : batch.Applied store store' old add remove) : Batch.Law batch store (.done, store')

end

/-! ## Entry files -/

/-- How a kind of files is read, written and fed. -/
structure EntryKind.Denotes [Host] {α : Type} [DecidableEq α] (kind : EntryKind)
    (read : Bytes → Except InputError (List α)) (write : List α → Bytes)
    (normalize : Bytes → Except InputError α) (text : α → Bytes) : Prop where
  injective : Function.Injective text
  entries : ∀ contents, kind.entries contents = (read contents).map (List.map text)
  normalize : ∀ entry, kind.normalize entry = (normalize entry).map text
  nodup : ∀ {contents as}, read contents = .ok as → as.Nodup
  read_write : ∀ {as}, as.Nodup → read (write as) = .ok as

section

variable [Host]

omit [Host] in
theorem normalizeAll_eq_ok {α : Type} [DecidableEq α] {normalize : Bytes → Except InputError α}
    {inputs : List Bytes} {as : List α} : normalizeAll normalize inputs = .ok as ↔
      ∃ all, inputs.mapM normalize = .ok all ∧ as = all.foldl pushNew [] := by
  unfold normalizeAll
  cases inputs.mapM normalize with
  | error e =>
    constructor
    · rintro ⟨⟩
    · rintro ⟨_, ⟨⟩, _⟩
  | ok all =>
    constructor
    · intro h
      exact ⟨all, rfl, (Except.ok.inj h).symm⟩
    · rintro ⟨_, ⟨⟩, rfl⟩
      rfl

omit [Host] in
theorem SharedEntries.nodup_read {α ε : Type} [DecidableEq α] {text : α → Bytes}
    {normalize : Bytes → Except InputError α} {parseLine : Bytes → Option ε} {toProxy : α → ε}
    (hs : SharedEntries text normalize parseLine toProxy)
    {read : Bytes → Except InputError (List α)}
    (hread : ∀ contents, read contents = Cli.readLines contents >>= Cli.normalizeAll normalize) :
    (∀ {contents as}, read contents = .ok as → as.Nodup) ∧
      ∀ {as : List α}, as.Nodup → read (Proxy.unlines (as.map text)) = .ok as := by
  refine ⟨fun {contents as} h => ?_, fun {as} h => ?_⟩
  · rw [hread] at h
    cases hlines : Cli.readLines contents with
    | error e => rw [hlines] at h; cases h
    | ok ls =>
      rw [hlines] at h
      obtain ⟨all, -, rfl⟩ := normalizeAll_eq_ok.mp h
      exact nodup_foldl_pushNew List.nodup_nil all
  · rw [hread, hs.readLines]
    show Cli.normalizeAll normalize (as.map text) = .ok as
    rw [hs.normalizeAll, foldl_pushNew_of_nodup h]

theorem denotes_domain : EntryKind.domain.Denotes readDomains domainsText normalizeDomain
    PolicyName.text where
  injective _ _ h := PolicyName.ext h
  entries _ := rfl
  normalize _ := rfl
  nodup := (sharedDomains.nodup_read fun _ => rfl).1
  read_write := (sharedDomains.nodup_read fun _ => rfl).2

omit [Host] in
theorem LoopbackAuthority.display_injective : Function.Injective LoopbackAuthority.display := by
  intro a b h
  have hparse := LoopbackAuthority.parse_display a
  rw [h, LoopbackAuthority.parse_display] at hparse
  exact (Option.some.inj hparse).symm

theorem denotes_loopback : EntryKind.loopback.Denotes readLoopbackAuthorities loopbackText
    parseAuthority LoopbackAuthority.display where
  injective := LoopbackAuthority.display_injective
  entries _ := rfl
  normalize _ := rfl
  nodup := (sharedLoopback.nodup_read fun _ => rfl).1
  read_write := (sharedLoopback.nodup_read fun _ => rfl).2

section

variable {α : Type} [DecidableEq α] {kind : EntryKind} {read : Bytes → Except InputError (List α)}
  {write : List α → Bytes} {normalize : Bytes → Except InputError α} {text : α → Bytes}
  (hd : kind.Denotes read write normalize text)

include hd

theorem EntryKind.Denotes.mapM_normalize {entries : List Bytes} {as : List α}
    (h : entries.mapM normalize = .ok as) : entries.mapM kind.normalize = .ok (as.map text) := by
  rw [mapM_eq_ok] at h ⊢
  induction h with
  | nil => exact .nil
  | cons hentry _ ih => exact .cons (by rw [hd.normalize, hentry]; rfl) ih

theorem EntryKind.Denotes.entries_eq {contents : Bytes} {as : List α} (h : read contents = .ok as) :
    kind.entries contents = .ok (as.map text) := by
  rw [hd.entries, h]
  rfl

theorem EntryKind.Denotes.map_changed (old add remove : List α) :
    ((old ++ fresh old add).filter (· ∉ remove)).map text =
      changed (old.map text) (add.map text) (remove.map text) := by
  rw [map_filter_not_mem hd.injective, List.map_append, map_fresh hd.injective]
  exact List.filter_congr fun _ _ => decide_eq_decide.mpr Iff.rfl

/-- What a mutation of the text of a file does to its entries. -/
theorem EntryKind.Denotes.mutate {display : α → Bytes} {contents contents' : Bytes}
    {add remove : List α}
    (h : (do return write (← mutateEntries display (← read contents) add remove)) =
      (.ok contents' : Except InputError Bytes)) :
    ∃ old, read contents = .ok old ∧ (∀ a ∈ remove, a ∈ old ++ fresh old add) ∧
      read contents' = .ok ((old ++ fresh old add).filter (· ∉ remove)) := by
  cases hread : read contents with
  | error e => simp only [hread, bind, Except.bind] at h; cases h
  | ok old =>
    simp only [hread, bind, Except.bind, mutateEntries, foldl_pushNew] at h
    by_cases hmissing : (remove.filter (· ∉ old ++ fresh old add)).isEmpty = true
    · rw [if_pos hmissing] at h
      obtain rfl := Except.ok.inj h
      refine ⟨old, rfl, fun a ha => ?_, hd.read_write ?_⟩
      · rw [List.isEmpty_iff, List.filter_eq_nil_iff] at hmissing
        simpa only [decide_eq_true_eq, not_not] using hmissing a ha
      · have hnodup := nodup_foldl_pushNew (hd.nodup hread) add
        rw [foldl_pushNew] at hnodup
        exact hnodup.filter _
    · rw [if_neg hmissing] at h
      cases h

end

end

/-! ## What is kept on the way -/

section

variable {allowed : List RunDir → Prop} {store : Store}

theorem Unchanged.refl (h : allowed store.runs) : Unchanged allowed store store := ⟨fun _ => rfl, h⟩

theorem keepsFiles_ensure : Keeps (Unchanged allowed store) ensure := by
  refine Keeps.modify fun s h => ⟨fun file => ?_, h.runs⟩
  rw [← h.contents file]
  rcases file with ⟨_ | key, _ | _⟩ <;> rfl

theorem LiveKept.refl (runs : List RunDir) : LiveKept runs runs :=
  ⟨List.Sublist.refl runs, fun _ h _ => h⟩

theorem LiveKept.filter {runs runs' : List RunDir} (h : LiveKept runs runs') :
    LiveKept runs (runs'.filter RunDir.leased) :=
  ⟨List.filter_sublist.trans h.sublist, fun dir hd hl =>
    List.mem_filter.mpr ⟨h.leased dir hd hl, hl⟩⟩

theorem keepsFiles_reapRuns {runs : List RunDir} :
    Keeps (Unchanged (LiveKept runs) store) reapRuns :=
  Keeps.modify fun _ h => ⟨h.contents, h.runs.filter⟩

theorem project?_addProject {s : Store} {dir : ProjectDir}
    (hnew : s.projects.find? (fun other => other.key == dir.key) = none) (key : Bytes) :
    (s.addProject dir hnew).project? key =
      if dir.key = key then some dir else s.project? key := by
  show (s.projects ++ [dir]).find? _ = _
  rw [List.find?_append]
  by_cases hkey : dir.key = key
  · subst hkey
    rw [hnew, if_pos rfl]
    simp
  · rw [if_neg hkey]
    have hsingle : [dir].find? (fun dir => dir.key == key) = none := by simp [hkey]
    rw [hsingle, Option.or_none]
    rfl

theorem contents_addProject {s : Store} {key path : Bytes}
    (hnew : s.projects.find? (fun other => other.key == key) = none) (file : ScopeFile) :
    (s.addProject { key, path, allow := [], loopback := [] } hnew).contents file =
      s.contents file := by
  rcases file with ⟨_ | key', _ | _⟩
  · rfl
  · rfl
  all_goals
    simp only [Store.contents_domain, Store.contents_loopback, project?_addProject]
    by_cases hkey : key = key'
    · subst hkey
      have hnone : s.project? key = none := hnew
      rw [if_pos rfl, hnone]
      rfl
    · rw [if_neg hkey]

theorem project?_setProject {s : Store} {key : Bytes} {f : ProjectDir → ProjectDir}
    {hf : ∀ dir, (f dir).key = dir.key} (key' : Bytes) :
    (s.setProject key f hf).project? key' =
      if key = key' then (s.project? key').map f else s.project? key' := by
  show (s.projects.map fun dir => if dir.key = key then f dir else dir).find? _ = _
  unfold Store.project?
  induction s.projects with
  | nil => simp
  | cons dir dirs ih =>
    have hkey : (if dir.key = key then f dir else dir).key = dir.key := by
      split
      · exact hf dir
      · rfl
    rw [List.map_cons, List.find?_cons, List.find?_cons, hkey, ih]
    by_cases hd : dir.key = key'
    · simp only [hd, beq_self_eq_true, eq_comm (a := key')]
      split <;> rfl
    · simp only [beq_eq_false_iff_ne.mpr hd]

variable [Host]

theorem keepsFiles_projectFiles (path : Bytes) :
    Keeps (Unchanged allowed store) (projectFiles path) := by
  intro s h
  unfold projectFiles
  rw [exec_bind]
  show Unchanged allowed store (StateExcept.exec _ s).2
  split
  · exact Keeps.ite (Keeps.bind (Keeps.throw _) fun _ => Keeps.pure _) (Keeps.pure _) s h
  · rename_i hfind
    exact ⟨fun file => (contents_addProject hfind file).trans (h.contents file), h.runs⟩

/-- The directory of a project is there and is its own. -/
theorem projectFiles_eq_ok {path : Bytes} {s s' : Store} {dir : ProjectDir}
    (h : (projectFiles path).exec s = (.ok dir, s')) :
    s'.project? (Host.keyForBytes path) = some dir ∧ dir.key = Host.keyForBytes path := by
  unfold projectFiles at h
  rw [exec_bind_eq_ok] at h
  obtain ⟨store, s₁, hget, h⟩ := h
  obtain ⟨⟩ := hget
  split at h
  · rename_i dir' hfind
    obtain ⟨-, h⟩ := exec_check h
    obtain ⟨⟩ := h
    exact ⟨hfind, by simpa using List.find?_some hfind⟩
  · rename_i hfind
    obtain ⟨⟩ := h
    refine ⟨?_, rfl⟩
    rw [project?_addProject, if_pos rfl]

/-! ## Writes -/

theorem keepsOnError_writeAtomic {P : Store → Prop} {path contents : Bytes} {f : Store → Store} :
    KeepsOnError P (writeAtomic path contents (modify f)) := by
  unfold writeAtomic
  split
  · exact KeepsOnError.of_keeps (Keeps.throw _)
  · exact KeepsOnError.modify

theorem writeAtomic_eq_ok {path contents : Bytes} {f : Store → Store} {s s' : Store} {u : Unit}
    (h : (writeAtomic path contents (modify f)).exec s = (.ok u, s')) : s' = f s := by
  unfold writeAtomic at h
  split at h
  · cases h
  · cases h
    rfl

theorem replaced_writeGlobal {contents : Bytes} {s s' : Store} {u : Unit}
    (h : (writeGlobal contents).exec s = (.ok u, s')) :
    Replaced ⟨none, .domain⟩ contents s s' := by
  obtain rfl := writeAtomic_eq_ok h
  refine ⟨rfl, fun other hother => ?_, rfl⟩
  rcases other with ⟨_ | key, _ | _⟩
  · exact absurd rfl hother
  all_goals rfl

theorem replaced_writeGlobalLoopback {contents : Bytes} {s s' : Store} {u : Unit}
    (h : (writeGlobalLoopback contents).exec s = (.ok u, s')) :
    Replaced ⟨none, .loopback⟩ contents s s' := by
  obtain rfl := writeAtomic_eq_ok h
  refine ⟨rfl, fun other hother => ?_, rfl⟩
  rcases other with ⟨_ | key, _ | _⟩
  · rfl
  · exact absurd rfl hother
  all_goals rfl

theorem replaced_writeProject {key contents : Bytes} {s s' : Store} {dir : ProjectDir} {u : Unit}
    (hdir : s.project? key = some dir) (h : (writeProject key contents).exec s = (.ok u, s')) :
    Replaced ⟨some key, .domain⟩ contents s s' := by
  obtain rfl := writeAtomic_eq_ok h
  refine ⟨?_, fun other hother => ?_, rfl⟩
  · simp [project?_setProject, hdir]
  · rcases other with ⟨_ | key', _ | _⟩
    · rfl
    · rfl
    · have hkey : key ≠ key' := fun heq => hother (by rw [heq])
      simp [project?_setProject, hkey]
    · rw [Store.contents_loopback, Store.contents_loopback, project?_setProject]
      split
      · rw [Option.map_map]
        rfl
      · rfl

theorem replaced_writeProjectLoopback {key contents : Bytes} {s s' : Store} {dir : ProjectDir}
    {u : Unit} (hdir : s.project? key = some dir)
    (h : (writeProjectLoopback key contents).exec s = (.ok u, s')) :
    Replaced ⟨some key, .loopback⟩ contents s s' := by
  obtain rfl := writeAtomic_eq_ok h
  refine ⟨?_, fun other hother => ?_, rfl⟩
  · simp [project?_setProject, hdir]
  · rcases other with ⟨_ | key', _ | _⟩
    · rfl
    · rfl
    · rw [Store.contents_domain, Store.contents_domain, project?_setProject]
      split
      · rw [Option.map_map]
        rfl
      · rfl
    · have hkey : key ≠ key' := fun heq => hother (by rw [heq])
      simp [project?_setProject, hkey]

/-! ## Mutations -/

/-- A batch that replaced its file after a mutation of its text. -/
theorem Batch.Applied.of_mutate {α : Type} [DecidableEq α] (batch : Batch) {s₁ s₂ : Store}
    {read : Bytes → Except InputError (List α)} {write : List α → Bytes}
    {normalize : Bytes → Except InputError α} {text display : α → Bytes}
    (hd : batch.kind.Denotes read write normalize text) {add remove all : List α}
    {contents contents' : Bytes}
    (hadd : batch.added.mapM normalize = .ok all) (hall : all.foldl pushNew [] = add.foldl pushNew [])
    (hremove : batch.removed.mapM normalize = .ok remove)
    (hsame : Unchanged (batch.RunsAfter store.runs) store s₁)
    (hcontents : s₁.contents batch.file = contents)
    (hm : (do return write (← mutateEntries display (← read contents) add remove)) =
      (.ok contents' : Except InputError Bytes))
    (hreplaced : Replaced batch.file contents' s₁ s₂) :
    ∃ old, batch.Applied store s₂ old (all.map text) (remove.map text) := by
  have hfresh (old : List α) : fresh old add = fresh old all := by
    have h := foldl_pushNew_foldl old all
    rw [hall, foldl_pushNew_foldl, foldl_pushNew, foldl_pushNew] at h
    exact List.append_cancel_left h
  obtain ⟨old, hold, hpresent, hafter⟩ := hd.mutate hm
  rw [hfresh] at hpresent hafter
  refine ⟨old.map text, ⟨hd.mapM_normalize hadd, hd.mapM_normalize hremove, ?_⟩, ?_, ?_, ?_, ?_, ?_⟩
  · rw [← hsame.contents, hcontents]
    exact hd.entries_eq hold
  · intro entry hentry
    obtain ⟨a, ha, rfl⟩ := List.mem_map.mp hentry
    rw [← map_fresh hd.injective, ← List.map_append]
    exact List.mem_map_of_mem (hpresent a ha)
  · rw [hreplaced.contents, ← hd.map_changed]
    exact hd.entries_eq hafter
  · rw [← hd.map_changed]
    exact (hd.nodup hafter).map hd.injective
  · exact fun file hfile => (hreplaced.others file hfile).trans (hsame.contents file)
  · rw [hreplaced.runs]
    exact hsame.runs

omit [Host] in
theorem keepsOnError_ofInput {α β : Type} {P : Store → Prop} {x : Except InputError α}
    {f : α → StoreM β} (hf : ∀ a, KeepsOnError P (f a)) : KeepsOnError P (ofInput x >>= f) :=
  KeepsOnError.bind (keeps_ofInput x) hf

theorem normalizeBatch_eq_ok {add remove : List Bytes} {add' remove' : List PolicyName}
    (h : normalizeBatch add remove = .ok (add', remove')) :
    add.mapM normalizeDomain = .ok add' ∧ remove.mapM normalizeDomain = .ok remove' := by
  unfold normalizeBatch at h
  cases hadd : add.mapM normalizeDomain with
  | error e => rw [hadd] at h; cases h
  | ok names =>
    cases hremove : remove.mapM normalizeDomain with
    | error e => rw [hadd, hremove] at h; cases h
    | ok names' =>
      rw [hadd, hremove] at h
      obtain ⟨⟩ := h
      exact ⟨rfl, rfl⟩

omit [Host] in
theorem normalizeLoopbackBatch_eq_ok {add remove : List Bytes}
    {add' remove' : List LoopbackAuthority}
    (h : normalizeLoopbackBatch add remove = .ok (add', remove')) :
    (∃ all, add.mapM parseAuthority = .ok all ∧ add' = all.foldl pushNew []) ∧
      remove.mapM parseAuthority = .ok remove' := by
  unfold normalizeLoopbackBatch at h
  cases hadd : normalizeLoopbackAuthorities add with
  | error e => rw [hadd] at h; cases h
  | ok names =>
    cases hremove : remove.mapM parseAuthority with
    | error e => rw [hadd, hremove] at h; cases h
    | ok names' =>
      rw [hadd, hremove] at h
      obtain ⟨⟩ := h
      exact ⟨normalizeAll_eq_ok.mp hadd, rfl⟩

/-- The law of a mutation: what it keeps when it fails, and what it does when it succeeds. -/
theorem Batch.law_of_mutate {batch : Batch} {m : StoreM Unit}
    (hrun : batch.run = do return (fun _ => .done) (← m))
    (herror : KeepsOnError (Unchanged (batch.RunsAfter store.runs) store) m)
    (hok : ∀ store', m.exec store = (.ok (), store') →
      ∃ old add remove, batch.Applied store store' old add remove)
    (hruns : batch.RunsAfter store.runs store.runs) : batch.Law store (batch.exec store) := by
  unfold Batch.exec
  rw [hrun, exec_bind]
  rcases hm : m.exec store with ⟨error | u, store'⟩
  · exact .failed (herror store (Unchanged.refl hruns) error store' hm)
  · obtain ⟨old, add, remove, happlied⟩ := hok store' hm
    exact .done happlied

omit [Host] in
/-- What runs under the lock starts from the same files and runs. -/
theorem exec_locked_eq_ok {α : Type} {f : StoreM α} {s s' : Store} {a : α}
    (h : (locked f).exec s = (.ok a, s')) :
    ∃ s₁, Unchanged (· = s.runs) s s₁ ∧ f.exec s₁ = (.ok a, s') := by
  obtain ⟨_, s₁, hensure, h⟩ := exec_bind_eq_ok.mp h
  have hsame := keepsFiles_ensure s (show Unchanged (· = s.runs) s s from Unchanged.refl rfl)
  rw [hensure] at hsame
  exact ⟨s₁, hsame, h⟩

theorem law_mutateGlobal (add remove : List Bytes) :
    (Batch.mutate .domain none add remove).Law store
      ((Batch.mutate .domain none add remove).exec store) := by
  refine Batch.law_of_mutate rfl ?_ (fun store' hexec => ?_) rfl
  · refine keepsOnError_ofInput fun batch => KeepsOnError.bind keepsFiles_ensure fun _ => ?_
    refine KeepsOnError.bind Keeps.get fun _ => KeepsOnError.bind (keeps_present _) fun _ => ?_
    exact keepsOnError_ofInput fun _ => keepsOnError_writeAtomic
  · obtain ⟨⟨add', remove'⟩, s₀, hbatch, h⟩ := exec_bind_eq_ok.mp hexec
    obtain ⟨hnormal, rfl⟩ := ofInput_eq_ok.mp hbatch
    obtain ⟨hadd, hremove⟩ := normalizeBatch_eq_ok hnormal
    obtain ⟨s₁, hsame, h⟩ := exec_locked_eq_ok h
    obtain ⟨s, s₂, hget, h⟩ := exec_bind_eq_ok.mp h
    obtain ⟨⟩ := hget
    simp only [exec_bind_eq_ok, present_eq_ok, ofInput_eq_ok] at h
    obtain ⟨contents, s₃, ⟨hcontents, rfl⟩, contents', s₄, ⟨hmutate, rfl⟩, hwrite⟩ := h
    have hfile : s₄.contents ⟨none, .domain⟩ = contents := by
      show s₄.global.getD [] = contents
      rw [hcontents, Option.getD_some]
    obtain ⟨old, happlied⟩ := Batch.Applied.of_mutate (.mutate .domain none add remove)
      denotes_domain hadd rfl hremove hsame hfile hmutate (replaced_writeGlobal hwrite)
    exact ⟨old, _, _, happlied⟩

theorem law_mutateProject (project : Bytes) (add remove : List Bytes) :
    (Batch.mutate .domain (some project) add remove).Law store
      ((Batch.mutate .domain (some project) add remove).exec store) := by
  refine Batch.law_of_mutate rfl ?_ (fun store' hexec => ?_) rfl
  · refine keepsOnError_ofInput fun batch => KeepsOnError.bind keepsFiles_ensure fun _ => ?_
    refine KeepsOnError.bind (keepsFiles_projectFiles project) fun _ => ?_
    exact keepsOnError_ofInput fun _ => keepsOnError_writeAtomic
  · obtain ⟨⟨add', remove'⟩, s₀, hbatch, h⟩ := exec_bind_eq_ok.mp hexec
    obtain ⟨hnormal, rfl⟩ := ofInput_eq_ok.mp hbatch
    obtain ⟨hadd, hremove⟩ := normalizeBatch_eq_ok hnormal
    obtain ⟨s₁, hsame, h⟩ := exec_locked_eq_ok h
    obtain ⟨dir, s₂, hfiles, h⟩ := exec_bind_eq_ok.mp h
    replace hsame := keepsFiles_projectFiles project s₁ hsame
    rw [hfiles] at hsame
    obtain ⟨hdir, hkey⟩ := projectFiles_eq_ok hfiles
    simp only [exec_bind_eq_ok, ofInput_eq_ok] at h
    obtain ⟨contents', s₃, ⟨hmutate, rfl⟩, hwrite⟩ := h
    rw [hkey] at hwrite
    have hfile : s₃.contents ⟨some (Host.keyForBytes project), .domain⟩ = dir.allow := by
      rw [Store.contents_domain, hdir]
      rfl
    obtain ⟨old, happlied⟩ := Batch.Applied.of_mutate (.mutate .domain (some project) add remove)
      denotes_domain hadd rfl hremove hsame hfile hmutate (replaced_writeProject hdir hwrite)
    exact ⟨old, _, _, happlied⟩

theorem law_mutateLoopbackGlobal (add remove : List Bytes) :
    (Batch.mutate .loopback none add remove).Law store
      ((Batch.mutate .loopback none add remove).exec store) := by
  refine Batch.law_of_mutate rfl ?_ (fun store' hexec => ?_) rfl
  · refine keepsOnError_ofInput fun batch => KeepsOnError.bind keepsFiles_ensure fun _ => ?_
    refine KeepsOnError.bind Keeps.get fun _ => KeepsOnError.bind (keeps_present _) fun _ => ?_
    exact keepsOnError_ofInput fun _ => keepsOnError_writeAtomic
  · obtain ⟨⟨add', remove'⟩, s₀, hbatch, h⟩ := exec_bind_eq_ok.mp hexec
    obtain ⟨hnormal, rfl⟩ := ofInput_eq_ok.mp hbatch
    obtain ⟨⟨all, hadd, hall⟩, hremove⟩ := normalizeLoopbackBatch_eq_ok hnormal
    obtain ⟨s₁, hsame, h⟩ := exec_locked_eq_ok h
    obtain ⟨s, s₂, hget, h⟩ := exec_bind_eq_ok.mp h
    obtain ⟨⟩ := hget
    simp only [exec_bind_eq_ok, present_eq_ok, ofInput_eq_ok] at h
    obtain ⟨contents, s₃, ⟨hcontents, rfl⟩, contents', s₄, ⟨hmutate, rfl⟩, hwrite⟩ := h
    have hfile : s₄.contents ⟨none, .loopback⟩ = contents := by
      show s₄.globalLoopback.getD [] = contents
      rw [hcontents, Option.getD_some]
    obtain ⟨old, happlied⟩ := Batch.Applied.of_mutate (.mutate .loopback none add remove)
      denotes_loopback hadd (by rw [hall, foldl_pushNew_foldl]) hremove hsame hfile hmutate
      (replaced_writeGlobalLoopback hwrite)
    exact ⟨old, _, _, happlied⟩

theorem law_mutateLoopbackProject (project : Bytes) (add remove : List Bytes) :
    (Batch.mutate .loopback (some project) add remove).Law store
      ((Batch.mutate .loopback (some project) add remove).exec store) := by
  refine Batch.law_of_mutate rfl ?_ (fun store' hexec => ?_) rfl
  · refine keepsOnError_ofInput fun batch => KeepsOnError.bind keepsFiles_ensure fun _ => ?_
    refine KeepsOnError.bind (keepsFiles_projectFiles project) fun _ => ?_
    exact keepsOnError_ofInput fun _ => keepsOnError_writeAtomic
  · obtain ⟨⟨add', remove'⟩, s₀, hbatch, h⟩ := exec_bind_eq_ok.mp hexec
    obtain ⟨hnormal, rfl⟩ := ofInput_eq_ok.mp hbatch
    obtain ⟨⟨all, hadd, hall⟩, hremove⟩ := normalizeLoopbackBatch_eq_ok hnormal
    obtain ⟨s₁, hsame, h⟩ := exec_locked_eq_ok h
    obtain ⟨dir, s₂, hfiles, h⟩ := exec_bind_eq_ok.mp h
    replace hsame := keepsFiles_projectFiles project s₁ hsame
    rw [hfiles] at hsame
    obtain ⟨hdir, hkey⟩ := projectFiles_eq_ok hfiles
    simp only [exec_bind_eq_ok, ofInput_eq_ok] at h
    obtain ⟨contents', s₃, ⟨hmutate, rfl⟩, hwrite⟩ := h
    rw [hkey] at hwrite
    have hfile : s₃.contents ⟨some (Host.keyForBytes project), .loopback⟩ = dir.loopback := by
      rw [Store.contents_loopback, hdir]
      rfl
    obtain ⟨old, happlied⟩ := Batch.Applied.of_mutate (.mutate .loopback (some project) add remove)
      denotes_loopback hadd (by rw [hall, foldl_pushNew_foldl]) hremove hsame hfile hmutate
      (replaced_writeProjectLoopback hdir hwrite)
    exact ⟨old, _, _, happlied⟩

/-! ## Denials -/

omit [Host] in
theorem find?_of_nodup {dirs : List ProjectDir} (hdistinct : (dirs.map ProjectDir.key).Nodup)
    {dir : ProjectDir} (h : dir ∈ dirs) : dirs.find? (fun other => other.key == dir.key) = some dir := by
  induction dirs with
  | nil => cases h
  | cons other dirs ih =>
    rw [List.map_cons, List.nodup_cons] at hdistinct
    rcases List.mem_cons.mp h with rfl | h
    · exact List.find?_cons_of_pos (beq_self_eq_true _)
    · have hkey : (other.key == dir.key) = false := by
        refine beq_eq_false_iff_ne.mpr fun heq => ?_
        exact hdistinct.1 (List.mem_map.mpr ⟨dir, h, heq.symm⟩)
      rw [List.find?_cons, hkey]
      exact ih hdistinct.2 h

omit [Host] in
theorem project?_of_mem {s : Store} {dir : ProjectDir} (h : dir ∈ s.projects) :
    s.project? dir.key = some dir := find?_of_nodup s.distinct h

theorem keepsFiles_snapshotLocked :
    Keeps (Unchanged (LiveKept store.runs) store) snapshotLocked := by
  refine Keeps.bind keepsFiles_reapRuns fun _ => Keeps.bind Keeps.get fun s => ?_
  refine Keeps.bind (keeps_present _) fun _ => Keeps.bind (keeps_ofInput _) fun _ => ?_
  refine Keeps.bind (keeps_present _) fun _ => Keeps.bind (keeps_ofInput _) fun _ => ?_
  refine Keeps.bind (keeps_projects _) fun _ => ?_
  exact Keeps.bind (Keeps.mapM (fun dir => keeps_activeRun dir _ _ _) _) fun _ => Keeps.pure _

section

variable {α : Type} [DecidableEq α] {project : Option Bytes} {snapshot : PolicySnapshot}
  {selected entries : List α} {sources : PolicySnapshot → α → Bytes → List Bytes}
  {after : List α → PolicySnapshot} {write : List α → StoreM Unit}

omit [Host]

theorem keepsOnError_denyEntries {P : Store → Prop} (hw : ∀ retained, KeepsOnError P (write retained)) :
    KeepsOnError P (denyEntries project snapshot selected entries sources after write) := by
  simp only [denyEntries]
  split
  · exact KeepsOnError.of_keeps (Keeps.pure _)
  · exact KeepsOnError.bind_pure (hw _)

/-- A denial that misses nothing writes what it retains and reports from there. -/
theorem denyEntries_done {s s' : Store} {report : DenyReport α}
    (h : (denyEntries project snapshot selected entries sources after write).exec s =
      (.ok report, s')) (hdone : report.missing = []) :
    (∀ entry ∈ entries, entry ∈ selected) ∧
      (write (selected.filter (· ∉ entries))).exec s = (.ok (), s') ∧
      report.remaining = entries.map fun entry =>
        ⟨entry, sources (after (selected.filter (· ∉ entries))) entry []⟩ := by
  simp only [denyEntries] at h
  by_cases hmissing : (entries.filter (· ∉ selected)).isEmpty = true
  · rw [hmissing] at h
    obtain ⟨u, s₁, hwrite, h⟩ := exec_bind_eq_ok.mp h
    obtain ⟨⟩ := h
    refine ⟨fun entry hentry => ?_, hwrite, rfl⟩
    rw [List.isEmpty_iff, List.filter_eq_nil_iff] at hmissing
    simpa only [decide_eq_true_eq, not_not] using hmissing entry hentry
  · rw [Bool.not_eq_true] at hmissing
    rw [hmissing] at h
    obtain ⟨⟩ := h
    rw [List.map_eq_nil_iff] at hdone
    rw [hdone] at hmissing
    cases hmissing

/-- A denial reports missing entries and does nothing, or it writes what it retains. -/
theorem denyEntries_eq_ok {s s' : Store} {report : DenyReport α}
    (h : (denyEntries project snapshot selected entries sources after write).exec s =
      (.ok report, s')) :
    (report.outcome = .missing ∧ s' = s) ∨
      (report.outcome = .done ∧ (∀ entry ∈ entries, entry ∈ selected) ∧
        (write (selected.filter (· ∉ entries))).exec s = (.ok (), s')) := by
  by_cases hdone : report.missing = []
  · obtain ⟨hpresent, hwrite, -⟩ := denyEntries_done h hdone
    refine .inr ⟨?_, hpresent, hwrite⟩
    rw [DenyReport.outcome, hdone]
    rfl
  · refine .inl ⟨if_neg (by simpa using hdone), ?_⟩
    simp only [denyEntries] at h
    split at h
    · obtain ⟨⟩ := h
      rfl
    · obtain ⟨u, s₁, -, h⟩ := exec_bind_eq_ok.mp h
      obtain ⟨⟩ := h
      exact absurd rfl hdone

end

/-- A denial that replaced its file by what it retains. -/
theorem Batch.Applied.of_deny {α : Type} [DecidableEq α] (kind : EntryKind)
    (project : Option Bytes) (entries : List Bytes) {s₁ s₂ : Store}
    {read : Bytes → Except InputError (List α)} {write : List α → Bytes}
    {normalize : Bytes → Except InputError α} {text : α → Bytes}
    (hd : kind.Denotes read write normalize text) {all selected : List α}
    (hall : entries.mapM normalize = .ok all)
    (hsame : Unchanged (LiveKept store.runs) store s₁)
    (hselected : read (s₁.contents (Batch.deny kind project entries).file) = .ok selected)
    (hpresent : ∀ entry ∈ all.foldl pushNew [], entry ∈ selected)
    (hreplaced : Replaced (Batch.deny kind project entries).file
      (write (selected.filter (· ∉ all.foldl pushNew []))) s₁ s₂) :
    ∃ old, (Batch.deny kind project entries).Applied store s₂ old [] (all.map text) := by
  have hmem (a : α) : a ∈ all.foldl pushNew [] ↔ a ∈ all := by simp [mem_foldl_pushNew]
  have hretained : selected.filter (· ∉ all.foldl pushNew []) =
      (selected ++ fresh selected []).filter (· ∉ all) := by
    rw [fresh, List.filter_nil, List.foldl_nil, List.append_nil]
    exact List.filter_congr fun a _ => decide_eq_decide.mpr (not_congr (hmem a))
  have hnodup : (selected.filter (· ∉ all.foldl pushNew [])).Nodup := (hd.nodup hselected).filter _
  have hafter := hd.read_write hnodup
  have hchanged := hd.map_changed selected [] all
  rw [← hretained, List.map_nil] at hchanged
  refine ⟨selected.map text, ⟨rfl, hd.mapM_normalize hall, ?_⟩, ?_, ?_, ?_, ?_, ?_⟩
  · rw [← hsame.contents]
    exact hd.entries_eq hselected
  · intro entry hentry
    obtain ⟨a, ha, rfl⟩ := List.mem_map.mp hentry
    exact List.mem_append.mpr (.inl (List.mem_map_of_mem (hpresent a ((hmem a).mpr ha))))
  · rw [hreplaced.contents, ← hchanged]
    exact hd.entries_eq hafter
  · rw [← hchanged]
    exact hnodup.map hd.injective
  · exact fun file hfile => (hreplaced.others file hfile).trans (hsame.contents file)
  · show LiveKept store.runs s₂.runs
    rw [hreplaced.runs]
    exact hsame.runs

/-- The law of a denial, from what it retains and how it writes that. -/
theorem Batch.law_of_deny {α : Type} [DecidableEq α] {batch : Batch} {m : StoreM (DenyReport α)}
    (hrun : batch.run = do return (← m).outcome) (hbatch : batch.RunsAfter = LiveKept)
    (herror : KeepsOnError (Unchanged (LiveKept store.runs) store) m)
    (hok : ∀ report store', m.exec store = (.ok report, store') →
      (report.outcome = .missing ∧ Unchanged (LiveKept store.runs) store store') ∨
        (report.outcome = .done ∧ ∃ old add remove, batch.Applied store store' old add remove)) :
    batch.Law store (batch.exec store) := by
  unfold Batch.exec
  rw [hrun, exec_bind]
  rcases hm : m.exec store with ⟨error | report, store'⟩
  · refine .failed ?_
    rw [hbatch]
    exact herror store (Unchanged.refl (LiveKept.refl _)) error store' hm
  · show batch.Law store (report.outcome, store')
    rcases hok report store' hm with ⟨houtcome, hsame⟩ | ⟨houtcome, old, add, remove, happlied⟩
    · rw [houtcome]
      refine .missing ?_
      rw [hbatch]
      exact hsame
    · rw [houtcome]
      exact .done happlied

omit [Host] in
/-- Under the lock a denial starts from the same files. -/
theorem unchanged_live {s s₁ : Store} (h : Unchanged (· = s.runs) s s₁) :
    Unchanged (LiveKept s.runs) s s₁ := by
  refine ⟨h.contents, ?_⟩
  rw [h.runs]
  exact LiveKept.refl _

theorem keepsOnError_assertStored {P : Store → Prop} {snapshot : PolicySnapshot} {path : Bytes}
    {m : StoreM Unit} (hm : KeepsOnError P m) :
    KeepsOnError P (do assertStored snapshot path; m) :=
  KeepsOnError.bind (keeps_assertStored _ _) fun _ => hm

/-- The stored project of a snapshot is the one with its key. -/
theorem project?_of_storedProject {s s' : Store} {snapshot : PolicySnapshot} {path : Bytes}
    {project : PolicyProject} (h : snapshotLocked.exec s = (.ok snapshot, s'))
    (hstored : storedProject snapshot path = some project) :
    ∃ dir, s'.project? (Host.keyForBytes path) = some dir ∧
      readDomains dir.allow = .ok project.domains ∧
      readLoopbackAuthorities dir.loopback = .ok project.loopback := by
  obtain ⟨-, -, -, -, -, -, hprojects, -⟩ := snapshotLocked_eq_ok h
  obtain ⟨dir, hdir, hkey, hdomains, hloopback⟩ :=
    mem_projects hprojects (List.mem_of_find?_eq_some hstored)
  have hfound := List.find?_some hstored
  rw [Bool.and_eq_true, beq_iff_eq] at hfound
  refine ⟨dir, ?_, hdomains, hloopback⟩
  rw [← hfound.1, ← hkey]
  exact project?_of_mem hdir

omit [Host] in
theorem assertStored_eq_ok [Host] {snapshot : PolicySnapshot} {path : Bytes} {m : StoreM Unit}
    {s s' : Store} {u : Unit} (h : (do assertStored snapshot path; m : StoreM Unit).exec s =
      (.ok u, s')) : (storedProject snapshot path).isSome = true ∧ m.exec s = (.ok u, s') := by
  obtain ⟨_, s₁, hassert, h⟩ := exec_bind_eq_ok.mp h
  unfold assertStored at hassert
  split at hassert
  · cases hassert
  · rename_i hstored
    obtain ⟨⟩ := hassert
    rw [Bool.not_eq_true, Option.isNone_eq_false_iff] at hstored
    exact ⟨hstored, h⟩

theorem law_deny (project : Option Bytes) (domains : List Bytes) :
    (Batch.deny .domain project domains).Law store
      ((Batch.deny .domain project domains).exec store) := by
  refine Batch.law_of_deny rfl rfl ?_ fun report store' hexec => ?_
  · refine keepsOnError_ofInput fun names => KeepsOnError.bind keepsFiles_ensure fun _ => ?_
    refine KeepsOnError.bind keepsFiles_snapshotLocked fun snapshot => ?_
    cases project with
    | none =>
      refine KeepsOnError.bind Keeps.get fun _ => KeepsOnError.bind (keeps_present _) fun _ => ?_
      exact keepsOnError_ofInput fun _ => keepsOnError_denyEntries fun _ =>
        keepsOnError_writeAtomic
    | some path =>
      exact keepsOnError_denyEntries fun _ => keepsOnError_assertStored keepsOnError_writeAtomic
  · obtain ⟨names, s₀, hnames, h⟩ := exec_bind_eq_ok.mp hexec
    obtain ⟨hnormal, rfl⟩ := ofInput_eq_ok.mp hnames
    obtain ⟨all, hall, rfl⟩ := normalizeAll_eq_ok.mp hnormal
    obtain ⟨s₁, hensured, h⟩ := exec_locked_eq_ok h
    obtain ⟨snapshot, s₂, hsnapshot, h⟩ := exec_bind_eq_ok.mp h
    have hsame := keepsFiles_snapshotLocked s₁ (unchanged_live hensured)
    rw [hsnapshot] at hsame
    cases project with
    | none =>
      obtain ⟨s, s₃, hget, hread⟩ := exec_bind_eq_ok.mp h
      obtain ⟨⟩ := hget
      simp only [exec_bind_eq_ok, present_eq_ok, ofInput_eq_ok] at hread
      obtain ⟨contents, s₄, ⟨hcontents, rfl⟩, selected, s₅, ⟨hselected, rfl⟩, hdeny⟩ := hread
      rcases denyEntries_eq_ok hdeny with ⟨houtcome, rfl⟩ | ⟨houtcome, hpresent, hwrite⟩
      · exact .inl ⟨houtcome, hsame⟩
      · have hfile : s₅.contents ⟨none, .domain⟩ = contents := by
          show s₅.global.getD [] = contents
          rw [hcontents, Option.getD_some]
        rw [← hfile] at hselected
        obtain ⟨old, happlied⟩ := Batch.Applied.of_deny .domain none domains denotes_domain hall
          hsame hselected hpresent (replaced_writeGlobal hwrite)
        exact .inr ⟨houtcome, old, _, _, happlied⟩
    | some path =>
      rcases denyEntries_eq_ok h with ⟨houtcome, rfl⟩ | ⟨houtcome, hpresent, hwrite⟩
      · exact .inl ⟨houtcome, hsame⟩
      · obtain ⟨hstored, hwrite⟩ := assertStored_eq_ok hwrite
        obtain ⟨found, hfound⟩ := Option.isSome_iff_exists.mp hstored
        obtain ⟨dir, hdir, hdomains, -⟩ := project?_of_storedProject hsnapshot hfound
        rw [hfound] at hpresent hwrite
        have hfile : s₂.contents ⟨some (Host.keyForBytes path), .domain⟩ = dir.allow := by
          rw [Store.contents_domain, hdir]
          rfl
        rw [← hfile] at hdomains
        obtain ⟨old, happlied⟩ := Batch.Applied.of_deny .domain (some path) domains denotes_domain
          hall hsame hdomains hpresent (replaced_writeProject hdir hwrite)
        exact .inr ⟨houtcome, old, _, _, happlied⟩

theorem law_denyLoopback (project : Option Bytes) (authorities : List Bytes) :
    (Batch.deny .loopback project authorities).Law store
      ((Batch.deny .loopback project authorities).exec store) := by
  refine Batch.law_of_deny rfl rfl ?_ fun report store' hexec => ?_
  · refine keepsOnError_ofInput fun names => KeepsOnError.bind keepsFiles_ensure fun _ => ?_
    refine KeepsOnError.bind keepsFiles_snapshotLocked fun snapshot => ?_
    cases project with
    | none => exact keepsOnError_denyEntries fun _ => keepsOnError_writeAtomic
    | some path =>
      exact keepsOnError_denyEntries fun _ => keepsOnError_assertStored keepsOnError_writeAtomic
  · obtain ⟨names, s₀, hnames, h⟩ := exec_bind_eq_ok.mp hexec
    obtain ⟨hnormal, rfl⟩ := ofInput_eq_ok.mp hnames
    obtain ⟨all, hall, rfl⟩ := normalizeAll_eq_ok.mp hnormal
    obtain ⟨s₁, hensured, h⟩ := exec_locked_eq_ok h
    obtain ⟨snapshot, s₂, hsnapshot, h⟩ := exec_bind_eq_ok.mp h
    have hsame := keepsFiles_snapshotLocked s₁ (unchanged_live hensured)
    rw [hsnapshot] at hsame
    cases project with
    | none =>
      rcases denyEntries_eq_ok h with ⟨houtcome, rfl⟩ | ⟨houtcome, hpresent, hwrite⟩
      · exact .inl ⟨houtcome, hsame⟩
      · obtain ⟨-, contents, -, hcontents, -, hselected, -, -⟩ := snapshotLocked_eq_ok hsnapshot
        have hfile : s₂.contents ⟨none, .loopback⟩ = contents := by
          show s₂.globalLoopback.getD [] = contents
          rw [hcontents, Option.getD_some]
        rw [← hfile] at hselected
        obtain ⟨old, happlied⟩ := Batch.Applied.of_deny .loopback none authorities
          denotes_loopback hall hsame hselected hpresent (replaced_writeGlobalLoopback hwrite)
        exact .inr ⟨houtcome, old, _, _, happlied⟩
    | some path =>
      rcases denyEntries_eq_ok h with ⟨houtcome, rfl⟩ | ⟨houtcome, hpresent, hwrite⟩
      · exact .inl ⟨houtcome, hsame⟩
      · obtain ⟨hstored, hwrite⟩ := assertStored_eq_ok hwrite
        obtain ⟨found, hfound⟩ := Option.isSome_iff_exists.mp hstored
        obtain ⟨dir, hdir, -, hloopback⟩ := project?_of_storedProject hsnapshot hfound
        rw [hfound] at hpresent hwrite
        have hfile : s₂.contents ⟨some (Host.keyForBytes path), .loopback⟩ = dir.loopback := by
          rw [Store.contents_loopback, hdir]
          rfl
        rw [← hfile] at hloopback
        obtain ⟨old, happlied⟩ := Batch.Applied.of_deny .loopback (some path) authorities
          denotes_loopback hall hsame hloopback hpresent (replaced_writeProjectLoopback hdir hwrite)
        exact .inr ⟨houtcome, old, _, _, happlied⟩

/-! ## Modes -/

/-- A run whose mode may have been set; nothing else of it changes. -/
def ModeSet (mode : Proxy.Mode) (run run' : RunDir) : Prop :=
  run' = run ∨ run' = { run with mode := some (modeFile mode) }

/-- What setting the mode of the published runs does: with one invalid mode file it reports that and
writes none, and otherwise it writes mode files only. -/
structure ModeLaw (mode : Proxy.Mode) (store : Store) (result : Except StoreError ℕ × Store) :
    Prop where
  contents : ∀ file, result.2.contents file = store.contents file
  runs : List.Forall₂ (ModeSet mode) (store.runs.filter RunDir.leased) result.2.runs
  invalid : (∃ run ∈ store.runs, run.leased = true ∧ ∃ file ∈ run.mode, file.valid = false) →
    result.1 = .error (.invalidData (ascii "run mode must be a regular 0644 file")) ∧
      result.2.runs = store.runs.filter RunDir.leased

omit [Host] in
theorem validModes_error {dirs : List RunDir}
    (h : ∃ run ∈ dirs, ∃ file ∈ run.mode, ModeFile.valid file = false) :
    validModes dirs = .error (.invalidData (ascii "run mode must be a regular 0644 file")) := by
  obtain ⟨run, hrun, file, hfile, hinvalid⟩ := h
  induction dirs with
  | nil => cases hrun
  | cons dir dirs ih =>
    unfold validModes
    rcases List.mem_cons.mp hrun with rfl | hrun
    · rw [Option.mem_def.mp hfile]
      simp only [hinvalid, Bool.not_false, ↓reduceIte]
    · have hrest := ih hrun
      split
      · exact hrest
      · split
        · rfl
        · rw [hrest]
          rfl

omit [Host] in
theorem modeSet_trans {mode : Proxy.Mode} {a b c : RunDir} (hab : ModeSet mode a b)
    (hbc : ModeSet mode b c) : ModeSet mode a c := by
  rcases hab with rfl | rfl
  · exact hbc
  · rcases hbc with rfl | rfl
    · exact .inr rfl
    · exact .inr rfl

/-- Contents are as before, and runs only have their mode set. -/
structure ModesOnly (mode : Proxy.Mode) (store : Store) (runs : List RunDir) (store' : Store) :
    Prop where
  contents : ∀ file, store'.contents file = store.contents file
  runs : List.Forall₂ (ModeSet mode) runs store'.runs

theorem keeps_modesOnly {mode : Proxy.Mode} {runs : List RunDir} (dirs : List RunDir) :
    Keeps (ModesOnly mode store runs) (writeModes mode dirs) := by
  induction dirs with
  | nil => exact Keeps.pure _
  | cons dir dirs ih =>
    unfold writeModes
    split
    · exact ih
    · exact Keeps.throw _
    · refine Keeps.bind (Keeps.modify fun s h => ⟨h.contents, ?_⟩) fun _ =>
        Keeps.bind ih fun _ => Keeps.pure _
      rw [List.forall₂_map_right_iff]
      refine h.runs.imp fun run run' hset => modeSet_trans hset ?_
      split
      · exact .inr rfl
      · exact .inl rfl

/-- **Every mode file is checked before one is written.** -/
theorem law_setActiveMode (mode : Proxy.Mode) :
    ModeLaw mode store ((setActiveMode mode).exec store) := by
  let s₁ : Store :=
    { store with
      global := some (store.global.getD [])
      globalLoopback := some (store.globalLoopback.getD [])
      log := some (store.log.getD [])
      runs := store.runs.filter RunDir.leased }
  let sorted := s₁.runs.mergeSort fun a b => bytesLe a.id b.id
  have hexec : (setActiveMode mode).exec store =
      ((liftM (validModes sorted) : StoreM (List RunDir)) >>= writeModes mode).exec s₁ := rfl
  have hstart : ModesOnly mode store s₁.runs s₁ := by
    refine ⟨fun file => ?_, List.forall₂_same.mpr fun run _ => .inl rfl⟩
    rcases file with ⟨_ | key, _ | _⟩ <;> rfl
  have hkeep : Keeps (ModesOnly mode store s₁.runs)
      ((liftM (validModes sorted) : StoreM (List RunDir)) >>= writeModes mode) :=
    Keeps.liftExcept_bind fun dirs _ => keeps_modesOnly dirs
  rw [hexec]
  refine ⟨(hkeep s₁ hstart).contents, (hkeep s₁ hstart).runs, fun hinvalid => ?_⟩
  have herror : validModes sorted =
      .error (.invalidData (ascii "run mode must be a regular 0644 file")) := by
    obtain ⟨run, hrun, hleased, hfile⟩ := hinvalid
    refine validModes_error ⟨run, ?_, hfile⟩
    exact List.mem_mergeSort.mpr (List.mem_filter.mpr ⟨hrun, hleased⟩)
  rw [herror]
  exact ⟨rfl, rfl⟩

/-! ## Every batch -/

theorem Batch.law (batch : Batch) : batch.Law store (batch.exec store) := by
  rcases batch with ⟨_ | _, _ | project, add, remove⟩ | ⟨_ | _, project, entries⟩
  · exact law_mutateGlobal add remove
  · exact law_mutateProject project add remove
  · exact law_mutateLoopbackGlobal add remove
  · exact law_mutateLoopbackProject project add remove
  · exact law_deny project entries
  · exact law_denyLoopback project entries

theorem Batch.Reads.unique {batch : Batch} {old add remove old' add' remove' : List Bytes}
    (h : batch.Reads store old add remove) (h' : batch.Reads store old' add' remove') :
    old = old' ∧ add = add' ∧ remove = remove' :=
  ⟨Except.ok.inj (h.before.symm.trans h'.before), Except.ok.inj (h.added.symm.trans h'.added),
    Except.ok.inj (h.removed.symm.trans h'.removed)⟩

theorem Batch.Reads.valid {batch : Batch} {old add remove : List Bytes}
    (h : batch.Reads store old add remove) {entry : Bytes}
    (hentry : entry ∈ batch.added ++ batch.removed) :
    ∃ text, batch.kind.normalize entry = .ok text := by
  have hall {entries texts : List Bytes} (hmap : entries.mapM batch.kind.normalize = .ok texts)
      (hmem : entry ∈ entries) : ∃ text, batch.kind.normalize entry = .ok text := by
    obtain ⟨text, -, htext⟩ := exists_right_of_forall₂ (mapM_eq_ok.mp hmap) hmem
    exact ⟨text, htext⟩
  rcases List.mem_append.mp hentry with hadded | hremoved
  · exact hall h.added hadded
  · exact hall h.removed hremoved

/-- A batch that took effect had no fault. -/
theorem Batch.Faulty.ne_done {batch : Batch} (h : batch.Faulty store) :
    (batch.exec store).1 ≠ .done := by
  intro hdone
  have hlaw : batch.Law store (batch.exec store) := batch.law
  cases hexec : batch.exec store with
  | mk outcome store' =>
    rw [hexec] at hdone hlaw
    cases hlaw with
    | failed | missing => cases hdone
    | done applied =>
      cases h with
      | entry mem invalid =>
        obtain ⟨text, htext⟩ := applied.reads.valid mem
        exact invalid text htext
      | file unread => exact unread _ applied.reads.before
      | absent reads mem absent =>
        obtain ⟨rfl, rfl, rfl⟩ := applied.reads.unique reads
        exact absent (applied.present _ mem)

/-- **A batch takes effect as a whole, on its own file, or not at all**; it does not take effect with a
fault in one of its entries, and modes are set only after every mode file is checked. -/
theorem policy_batches_atomic (store : Store) :
    (∀ batch : Batch, batch.Law store (batch.exec store)) ∧
      (∀ batch : Batch, batch.Faulty store → (batch.exec store).1 ≠ .done) ∧
      ∀ mode, ModeLaw mode store ((setActiveMode mode).exec store) :=
  ⟨fun batch => batch.law, fun _ h => h.ne_done, fun mode => law_setActiveMode mode⟩

end

/-! ## Runs that have ended -/

theorem projects_nil [Host] : projects [] = pure [] := by
  rw [projects, List.mapM_nil, pure_bind, List.mergeSort_nil]

/-- A snapshot of a store without entries whose runs have all ended. -/
theorem snapshotLocked_ended [Host] {store : Store} (hruns : store.runs.filter RunDir.leased = [])
    (hprojects : store.projects = []) (hglobal : store.global = some [])
    (hloopback : store.globalLoopback = some []) :
    snapshotLocked.exec store =
      (.ok ⟨[], [], [], []⟩, { store with runs := [] }) := by
  have hreap : reapRuns.exec store = (.ok (), { store with runs := [] }) := by
    show (Except.ok (), { store with runs := store.runs.filter RunDir.leased }) = _
    rw [hruns]
  have hget (s : Store) : (get : StoreM Store).exec s = (.ok s, s) := rfl
  have hpure {α : Type} (a : α) (s : Store) : (pure a : StoreM α).exec s = (.ok a, s) := rfl
  have hpresent (s : Store) : (present (some [])).exec s = (.ok [], s) := rfl
  have hdomains (s : Store) : (ofInput (readDomains [])).exec s = (.ok [], s) := rfl
  have hauthorities (s : Store) : (ofInput (readLoopbackAuthorities [])).exec s = (.ok [], s) := rfl
  unfold snapshotLocked
  simp only [exec_bind, hreap, hget, hglobal, hloopback, hprojects, hpresent, hdomains, hauthorities,
    projects_nil, hpure, List.mapM_nil, List.mergeSort_nil]

/-- In such a store a denial finds its entries missing, and the ended runs are gone. -/
theorem deny_ended [Host] (store : Store) {entries : List Bytes} {name : PolicyName}
    (hruns : store.runs.filter RunDir.leased = []) (hprojects : store.projects = [])
    (hglobal : store.global = none) (hloopback : store.globalLoopback = none)
    (hnames : normalizeDomains entries = .ok [name]) :
    ((Batch.deny .domain none entries).exec store).1 = .missing ∧
      ((Batch.deny .domain none entries).exec store).2.runs = [] := by
  let ensured : Store :=
    { store with
      global := some (store.global.getD [])
      globalLoopback := some (store.globalLoopback.getD [])
      log := some (store.log.getD []) }
  have hensure : ensure.exec store = (.ok (), ensured) := rfl
  have hcontents : ensured.global = some [] := by
    show some (store.global.getD []) = some []
    rw [hglobal]
    rfl
  have hcontents' : ensured.globalLoopback = some [] := by
    show some (store.globalLoopback.getD []) = some []
    rw [hloopback]
    rfl
  have hsnapshot : snapshotLocked.exec ensured = (.ok ⟨[], [], [], []⟩, { ensured with runs := [] }) :=
    snapshotLocked_ended hruns hprojects hcontents hcontents'
  have hnormal : (ofInput (normalizeDomains entries)).exec store = (.ok [name], store) := by
    rw [hnames]
    rfl
  have hpresent (s : Store) : (present (some [])).exec s = (.ok [], s) := rfl
  have hdomains (s : Store) : (ofInput (readDomains [])).exec s = (.ok [], s) := rfl
  have hget (s : Store) : (get : StoreM Store).exec s = (.ok s, s) := rfl
  unfold Batch.exec Batch.run deny locked
  simp only [exec_bind, hnormal, hensure, hsnapshot, hget, hcontents, hpresent, hdomains]
  exact ⟨rfl, rfl⟩

/-- A denial of an absent entry removes the files of a run whose process has ended. -/
theorem denial_reaps_runs : ¬ ∀ [Host] (batch : Batch) (store : Store),
    (batch.exec store).1 = .missing → (batch.exec store).2.runs = store.runs := by
  intro h
  let host : Host :=
    { domainToAscii := fun _ => none
      keyForBytes := id
      harnesses := []
      replaceError := fun _ _ => none }
  let ended : RunDir :=
    { id := ascii "1-1"
      leased := false
      harness := ascii "agent"
      projectKey := ascii "/p"
      projectPath := ascii "/p"
      base := []
      harnessAllow := []
      run := ascii "kept.example" ++ [10]
      loopback := []
      mode := some (modeFile .enforce) }
  let store : Store := { Store.empty with runs := [ended] }
  let name : PolicyName := ⟨ascii "absent.example", by decide +kernel, by decide +kernel⟩
  have hnames : normalizeDomains [name.text] = .ok [name] := by
    rw [normalizeDomains, normalizeAll, List.mapM_cons, normalizeDomain_text]
    rfl
  obtain ⟨hmissing, hgone⟩ := deny_ended store rfl rfl rfl rfl hnames
  have hruns := h _ store hmissing
  rw [hgone] at hruns
  cases hruns

end Vhrn.Cli
