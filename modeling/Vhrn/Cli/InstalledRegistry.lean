import Vhrn.Foundations.ReadModifyWrite
import Vhrn.Foundations.Words
import Mathlib.Data.List.Sort

/-!
# The registry of installed harnesses

One line for each harness, its name and its version. Adding and removing read the file, change the copy
and write a new file over the old one, without a lock: on the entries this is an instance of reading,
changing and writing back (`abstraction_step`), so operations that overlap lose updates. What
`readInstalled` returns is read back as written (`readInstalled_writeInstalled`).
-/

namespace Vhrn.Cli

open ReadModifyWrite

/-! ## The file -/

/-- A harness and the version that it was installed at. -/
structure InstalledHarness where
  name : Bytes
  version : Bytes
  deriving DecidableEq

/-- Insert into a map that is ordered by names. -/
def insertEntry (e : InstalledHarness) : List InstalledHarness → List InstalledHarness
  | [] => [e]
  | x :: xs =>
    if e.name < x.name then e :: x :: xs
    else if e.name = x.name then e :: xs
    else x :: insertEntry e xs

/-- The entry of a line, if it is neither blank nor a comment. -/
def entryOfLine (line : Bytes) : Option InstalledHarness :=
  let t := trim line
  if t = [] ∨ t.head? = some 35 then none
  else
    match splitWhitespace t with
    | [] => none
    | name :: fields => some ⟨name, fields.head?.getD (ascii "latest")⟩

/-- The entries of a registry file, by name; the last line of a name counts. -/
def readInstalled (content : Bytes) : List InstalledHarness :=
  ((lines content).filterMap entryOfLine).foldl (fun m e => insertEntry e m) []

/-- The version that a harness is installed at. -/
def installedVersion (hs : List InstalledHarness) (name : Bytes) : Option Bytes :=
  (hs.find? fun h => h.name = name).map (·.version)

local instance lawfulBEqNames : LawfulBEq Bytes := inferInstance

/-- The entries with a name, the first of each name. -/
def withoutDuplicates (seen : List Bytes) : List InstalledHarness → List InstalledHarness
  | [] => []
  | h :: hs =>
    if h.name = [] ∨ h.name ∈ seen then withoutDuplicates seen hs
    else h :: withoutDuplicates (h.name :: seen) hs

def entryLine (h : InstalledHarness) : Bytes :=
  h.name ++ 32 :: (if h.version = [] then ascii "latest" else h.version) ++ [10]

/-- The comment on the first line. -/
def registryComment : Bytes :=
  ascii "# vhrn installed harnesses " ++ [0xE2, 0x80, 0x94] ++
    ascii " managed by `vhrn install`/`uninstall`."

/-- The file written for some entries, sorted by name. -/
def writeInstalled (hs : List InstalledHarness) : Bytes :=
  registryComment ++ [10] ++
    ((withoutDuplicates [] (hs.insertionSort fun a b => a.name ≤ b.name)).map entryLine).flatten

/-- The version of a harness is replaced, or the harness added at the end. -/
def addInstalled (name version : Bytes) (hs : List InstalledHarness) : List InstalledHarness :=
  match hs with
  | [] => [⟨name, version⟩]
  | h :: hs => if h.name = name then ⟨h.name, version⟩ :: hs else h :: addInstalled name version hs

def removeInstalled (name : Bytes) (hs : List InstalledHarness) : List InstalledHarness :=
  hs.filter fun h => h.name ≠ name

/-! ## Entries that a file can hold -/

/-- A name and a version that are words, the name not the start of a comment. -/
structure InstalledHarness.Valid (h : InstalledHarness) : Prop where
  name : Word h.name
  plain : h.name.head? ≠ some 35
  version : Word h.version

/-- Valid entries, one for each name. -/
structure ValidRegistry (hs : List InstalledHarness) : Prop where
  valid : ∀ h ∈ hs, h.Valid
  nodup : (hs.map (·.name)).Nodup

theorem entryOfLine_valid {line : Bytes} {h : InstalledHarness} (heq : entryOfLine line = some h) :
    h.Valid := by
  have hlatest : Word (ascii "latest") := Plain.word (by decide +kernel) (by decide)
  unfold entryOfLine at heq
  simp only at heq
  split at heq
  · cases heq
  · rename_i hne
    rw [not_or] at hne
    obtain ⟨b, t, ht⟩ := List.exists_cons_of_ne_nil hne.1
    have hspace : spaceLength (b :: t) = 0 := ht ▸ spaceLength_trim line
    obtain ⟨w, rest, hwords⟩ := splitWhitespace_head hspace
    have hword {x : Bytes} (hx : x ∈ (b :: w) :: rest) : Word x :=
      word_of_mem_splitWhitespace (s := trim line) (by rwa [ht, hwords])
    simp only [ht, hwords, Option.some.injEq] at heq
    subst heq
    refine ⟨hword List.mem_cons_self, ?_, ?_⟩
    · simpa [ht] using hne.2
    · cases rest with
      | nil => exact hlatest
      | cons v rest => exact hword (List.mem_cons_of_mem _ List.mem_cons_self)

theorem entryOfLine_pair {h : InstalledHarness} (hv : h.Valid) :
    entryOfLine (h.name ++ 32 :: h.version) = some h := by
  obtain ⟨b, w, hw⟩ := List.exists_cons_of_ne_nil hv.name.ne_nil
  have hplain := hv.plain
  unfold entryOfLine
  rw [trim_pair hv.name hv.version]
  simp only [splitWhitespace_pair hv.name hv.version]
  rw [if_neg]
  · rfl
  · rw [hw] at hplain ⊢
    simpa using hplain

/-! ## Ordered entries -/

theorem name_lt_ne {a b : Bytes} (h : a < b) : a ≠ b := by
  rintro rfl
  exact List.lt_irrefl a h

theorem name_lt_of_not_lt {a b : Bytes} (h : ¬ a < b) (hne : a ≠ b) : b < a := by
  by_contra h'
  exact hne (List.le_antisymm h' h)

/-- Entries in the order of their names. -/
def Ordered (hs : List InstalledHarness) : Prop := hs.Pairwise fun a b => a.name < b.name

theorem Ordered.nodup {hs : List InstalledHarness} (h : Ordered hs) : (hs.map (·.name)).Nodup := by
  rw [List.Nodup, List.pairwise_map]
  exact List.Pairwise.imp name_lt_ne h

theorem mem_insertEntry {e x : InstalledHarness} {m : List InstalledHarness} (hm : Ordered m) :
    x ∈ insertEntry e m ↔ x = e ∨ x ∈ m ∧ x.name ≠ e.name := by
  induction m with
  | nil => simp [insertEntry]
  | cons y m ih =>
    obtain ⟨hy, hm⟩ := List.pairwise_cons.mp hm
    unfold insertEntry
    split_ifs with hlt heq
    · have hne : ∀ z ∈ y :: m, z.name ≠ e.name := by
        intro z hz
        rcases List.mem_cons.mp hz with rfl | hz
        · exact (name_lt_ne hlt).symm
        · exact (name_lt_ne (List.lt_trans hlt (hy z hz))).symm
      rw [List.mem_cons]
      exact or_congr_right ⟨fun hx => ⟨hx, hne x hx⟩, And.left⟩
    · have hne : ∀ z ∈ m, z.name ≠ e.name := fun z hz => heq ▸ (name_lt_ne (hy z hz)).symm
      rw [List.mem_cons, List.mem_cons]
      refine or_congr_right ⟨fun hx => ⟨.inr hx, hne x hx⟩, fun hx => hx.1.resolve_left ?_⟩
      rintro rfl
      exact hx.2 heq.symm
    · rw [List.mem_cons, List.mem_cons, ih hm]
      constructor
      · rintro (rfl | rfl | ⟨hx, hne⟩)
        · exact .inr ⟨.inl rfl, fun h => heq h.symm⟩
        · exact .inl rfl
        · exact .inr ⟨.inr hx, hne⟩
      · rintro (rfl | ⟨rfl | hx, hne⟩)
        · exact .inr (.inl rfl)
        · exact .inl rfl
        · exact .inr (.inr ⟨hx, hne⟩)

theorem ordered_insertEntry {e : InstalledHarness} {m : List InstalledHarness} (hm : Ordered m) :
    Ordered (insertEntry e m) := by
  induction m with
  | nil => exact List.pairwise_singleton _ e
  | cons y m ih =>
    have hmem := hm
    obtain ⟨hy, hm⟩ := List.pairwise_cons.mp hm
    unfold insertEntry
    split_ifs with hlt heq
    · refine List.pairwise_cons.mpr ⟨fun z hz => ?_, hmem⟩
      rcases List.mem_cons.mp hz with rfl | hz
      · exact hlt
      · exact List.lt_trans hlt (hy z hz)
    · exact List.pairwise_cons.mpr ⟨fun z hz => heq ▸ hy z hz, hm⟩
    · refine List.pairwise_cons.mpr ⟨fun z hz => ?_, ih hm⟩
      rcases (mem_insertEntry hm).mp hz with rfl | ⟨hz, -⟩
      · exact name_lt_of_not_lt hlt heq
      · exact hy z hz

theorem ordered_foldl {es m : List InstalledHarness} (hm : Ordered m) :
    Ordered (es.foldl (fun m e => insertEntry e m) m) := by
  induction es generalizing m with
  | nil => exact hm
  | cons e es ih => exact ih (ordered_insertEntry hm)

/-- Entries of different names are all inserted. -/
theorem mem_foldl_insertEntry {es m : List InstalledHarness} (hes : (es.map (·.name)).Nodup)
    (hm : Ordered m) {x : InstalledHarness} :
    x ∈ es.foldl (fun m e => insertEntry e m) m ↔ x ∈ es ∨ x ∈ m ∧ ∀ e ∈ es, x.name ≠ e.name := by
  induction es generalizing m with
  | nil => simp
  | cons e es ih =>
    rw [List.map_cons, List.nodup_cons] at hes
    rw [List.foldl_cons, ih hes.2 (ordered_insertEntry hm), mem_insertEntry hm]
    have hne : ∀ e' ∈ es, e.name ≠ e'.name := fun e' he' h => hes.1 (h ▸ List.mem_map_of_mem he')
    simp only [List.mem_cons, forall_eq_or_imp]
    constructor
    · rintro (hx | ⟨rfl | ⟨hx, hxe⟩, hes'⟩)
      · exact .inl (.inr hx)
      · exact .inl (.inl rfl)
      · exact .inr ⟨hx, hxe, hes'⟩
    · rintro ((rfl | hx) | ⟨hx, hxe, hes'⟩)
      · exact .inr ⟨.inl rfl, hne⟩
      · exact .inl hx
      · exact .inr ⟨.inr ⟨hx, hxe⟩, hes'⟩

theorem Ordered.eq_of_mem_iff {hs hs' : List InstalledHarness} (h : Ordered hs) (h' : Ordered hs')
    (hmem : ∀ x, x ∈ hs ↔ x ∈ hs') : hs = hs' := by
  have hperm : hs.Perm hs' :=
    (List.perm_ext_iff_of_nodup h.nodup.of_map h'.nodup.of_map).mpr hmem
  have hasymm (a b : InstalledHarness) (hab : a.name < b.name) (hba : b.name < a.name) : a = b :=
    absurd (List.lt_trans hab hba) (List.lt_irrefl _)
  exact hperm.eq_of_pairwise (fun a b _ _ => hasymm a b) h h'

/-! ## Reading what was written -/

theorem valid_of_mem_readInstalled {content : Bytes} {h : InstalledHarness}
    (hmem : h ∈ readInstalled content) : h.Valid := by
  have hfold {es m : List InstalledHarness} (hes : ∀ e ∈ es, e.Valid) (hm : ∀ e ∈ m, e.Valid)
      (hord : Ordered m) : ∀ e ∈ es.foldl (fun m e => insertEntry e m) m, e.Valid := by
    induction es generalizing m with
    | nil => exact hm
    | cons e es ih =>
      refine ih (fun x hx => hes x (List.mem_cons_of_mem e hx)) (fun x hx => ?_)
        (ordered_insertEntry hord)
      rcases (mem_insertEntry hord).mp hx with rfl | ⟨hx, -⟩
      · exact hes x List.mem_cons_self
      · exact hm x hx
  refine hfold (fun e he => ?_) (fun e he => absurd he List.not_mem_nil) List.Pairwise.nil h hmem
  obtain ⟨line, -, hline⟩ := List.mem_filterMap.mp he
  exact entryOfLine_valid hline

theorem ordered_readInstalled (content : Bytes) : Ordered (readInstalled content) :=
  ordered_foldl List.Pairwise.nil

theorem validRegistry_readInstalled (content : Bytes) : ValidRegistry (readInstalled content) :=
  ⟨fun _ => valid_of_mem_readInstalled, (ordered_readInstalled content).nodup⟩

theorem withoutDuplicates_eq {hs : List InstalledHarness} {seen : List Bytes}
    (hne : ∀ h ∈ hs, h.name ≠ []) (hnodup : (hs.map (·.name)).Nodup)
    (hseen : ∀ h ∈ hs, h.name ∉ seen) : withoutDuplicates seen hs = hs := by
  induction hs generalizing seen with
  | nil => rfl
  | cons h hs ih =>
    rw [List.map_cons, List.nodup_cons] at hnodup
    have hfirst : ¬ (h.name = [] ∨ h.name ∈ seen) :=
      not_or.mpr ⟨hne h List.mem_cons_self, hseen h List.mem_cons_self⟩
    rw [withoutDuplicates, if_neg hfirst, ih (fun x hx => hne x (List.mem_cons_of_mem h hx)) hnodup.2]
    intro x hx hmem
    rcases List.mem_cons.mp hmem with heq | hmem
    · exact hnodup.1 (heq ▸ List.mem_map_of_mem hx)
    · exact hseen x (List.mem_cons_of_mem h hx) hmem

theorem lines_entryLine {h : InstalledHarness} (hv : h.Valid) (rest : Bytes) :
    lines (entryLine h ++ rest) = (h.name ++ 32 :: h.version) :: lines rest := by
  have hline : entryLine h = (h.name ++ 32 :: h.version) ++ [10] := by
    rw [entryLine, if_neg hv.version.ne_nil]
  have hend {b : UInt8} (hb : b ≠ 32) (hn : b ∉ h.name) (hver : b ∉ h.version) :
      b ∉ h.name ++ 32 :: h.version := by
    simp [hb, hn, hver]
  rw [hline, List.append_assoc, List.singleton_append, lines_append,
    lines_line (hend (by decide) hv.name.solid.no_line_end.1 hv.version.solid.no_line_end.1)
      (hend (by decide) hv.name.solid.no_line_end.2 hv.version.solid.no_line_end.2)]
  rfl

theorem readInstalled_lines {hs : List InstalledHarness} (hv : ∀ h ∈ hs, h.Valid) :
    readInstalled (registryComment ++ [10] ++ (hs.map entryLine).flatten) =
      hs.foldl (fun m e => insertEntry e m) [] := by
  have hentries : (lines (hs.map entryLine).flatten).filterMap entryOfLine = hs := by
    induction hs with
    | nil => rfl
    | cons h hs ih =>
      have hh := hv h List.mem_cons_self
      rw [List.map_cons, List.flatten_cons, lines_entryLine hh, List.filterMap_cons_some (entryOfLine_pair hh),
        ih fun x hx => hv x (List.mem_cons_of_mem h hx)]
  have hcomment : lines (registryComment ++ [10]) = [registryComment] :=
    lines_line (by decide +kernel) (by decide +kernel)
  have hskip : entryOfLine registryComment = none := by decide +kernel
  unfold readInstalled
  rw [List.append_assoc, List.singleton_append, lines_append, hcomment, List.singleton_append,
    List.filterMap_cons_none hskip, hentries]

/-- **Reading finds exactly the entries that were written.** -/
theorem mem_readInstalled_writeInstalled {hs : List InstalledHarness} (hv : ValidRegistry hs)
    {h : InstalledHarness} : h ∈ readInstalled (writeInstalled hs) ↔ h ∈ hs := by
  have hperm := List.perm_insertionSort (fun a b : InstalledHarness => a.name ≤ b.name) hs
  have hnodup := (hperm.map (·.name)).nodup_iff.mpr hv.nodup
  have hvalid : ∀ x ∈ hs.insertionSort (fun a b => a.name ≤ b.name), x.Valid := fun x hx =>
    hv.valid x (hperm.mem_iff.mp hx)
  have hall : withoutDuplicates [] (hs.insertionSort fun a b => a.name ≤ b.name) =
      hs.insertionSort fun a b => a.name ≤ b.name :=
    withoutDuplicates_eq (fun x hx => (hvalid x hx).name.ne_nil) hnodup fun _ _ => List.not_mem_nil
  rw [writeInstalled, hall, readInstalled_lines hvalid, mem_foldl_insertEntry hnodup List.Pairwise.nil]
  simp only [List.not_mem_nil, false_and, or_false]
  exact hperm.mem_iff

/-- **What was read is read again after it was written.** -/
theorem readInstalled_writeInstalled (content : Bytes) :
    readInstalled (writeInstalled (readInstalled content)) = readInstalled content :=
  (ordered_readInstalled _).eq_of_mem_iff (ordered_readInstalled content) fun _ =>
    mem_readInstalled_writeInstalled (validRegistry_readInstalled content)

/-! ## Operations without a lock -/

/-- A name that an entry can have, as the built-in harnesses have. -/
structure HarnessName where
  text : Bytes
  word : Word text
  plain : text.head? ≠ some 35

/-- Adding a harness at a version, or removing one. -/
inductive RegistryOp
  | add (name : HarnessName) (version : Bytes) (word : Word version)
  | remove (name : Bytes)

def RegistryOp.name : RegistryOp → Bytes
  | .add name _ _ => name.text
  | .remove name => name

/-- The version that the operation leaves its harness at. -/
def RegistryOp.version : RegistryOp → Option Bytes
  | .add _ version _ => some version
  | .remove _ => none

/-- The change of the entries that were read. -/
def RegistryOp.change : RegistryOp → List InstalledHarness → List InstalledHarness
  | .add name version _ => addInstalled name.text version
  | .remove name => removeInstalled name

/-- The registry file, what the operations under way have read, and those that have succeeded. -/
structure RegistryState (ι : Type*) where
  file : Option Bytes
  read : ι → Option (List InstalledHarness)
  succeeded : ι → Bool

def RegistryState.start {ι : Type*} (file : Option Bytes) : RegistryState ι :=
  ⟨file, fun _ => none, fun _ => false⟩

/-- The entries of the file, none of a missing one. -/
def entries (file : Option Bytes) : List InstalledHarness :=
  match file with
  | none => []
  | some content => readInstalled content

section

variable {ι : Type*} [DecidableEq ι] (ops : ι → RegistryOp)

/-- An operation reads the file, or cannot and goes on with no entries; or it renames what it has written
over the file. -/
def registryStep (s : RegistryState ι) : Move ι → Option (RegistryState ι)
  | .read i ok =>
    if s.read i = none ∧ s.succeeded i = false then
      some { s with read := Function.update s.read i (some (if ok then entries s.file else [])) }
    else none
  | .write i =>
    match s.read i with
    | none => none
    | some hs => some { file := some (writeInstalled ((ops i).change hs))
                        read := Function.update s.read i none
                        succeeded := Function.update s.succeeded i true }

/-- The operations that succeeded find what they did in the file, and every other harness is installed
at the version it was installed at before. -/
structure UpdatesKept (file : Option Bytes) (s : RegistryState ι) : Prop where
  updated : ∀ i, s.succeeded i = true →
    installedVersion (entries s.file) (ops i).name = (ops i).version
  others : ∀ name, (∀ i, s.succeeded i = true → (ops i).name ≠ name) →
    installedVersion (entries s.file) name = installedVersion (entries file) name

/-- An operation that cannot read the file goes on to write what keeps the other entries of it. -/
def UnreadKept (s : RegistryState ι) : Move ι → Prop
  | .read i false => ∀ name, name ≠ (ops i).name →
      installedVersion (entries (some (writeInstalled ((ops i).change [])))) name =
        installedVersion (entries s.file) name
  | _ => True

/-- A file that cannot be read holds no entry of another harness. -/
def NothingUnread (s : RegistryState ι) : Move ι → Prop
  | .read i false => ∀ h ∈ entries s.file, h.name = (ops i).name
  | _ => True

/-! ## The operations as updates of one key -/

def RegistryOp.update (op : RegistryOp) : Update Bytes Bytes := ⟨op.name, op.version⟩

/-- The versions in the file and in what was read. -/
def RegistryState.versions (s : RegistryState ι) : Shared ι Bytes Bytes where
  value := installedVersion (entries s.file)
  copies i := (s.read i).map installedVersion
  done := s.succeeded

variable {ops}

omit [DecidableEq ι] in
theorem installedVersion_eq_some {hs : List InstalledHarness} (hnodup : (hs.map (·.name)).Nodup)
    {name version : Bytes} : installedVersion hs name = some version ↔ ⟨name, version⟩ ∈ hs := by
  induction hs with
  | nil => simp [installedVersion]
  | cons h hs ih =>
    rw [List.map_cons, List.nodup_cons] at hnodup
    unfold installedVersion at ih ⊢
    rw [List.find?_cons, List.mem_cons]
    by_cases hname : h.name = name
    · have hrest : ⟨name, version⟩ ∉ hs := fun hmem => hnodup.1 (hname ▸ List.mem_map_of_mem hmem)
      simp only [hname, decide_true, Option.map_some, Option.some.injEq, hrest, or_false]
      constructor
      · rintro rfl
        rw [← hname]
      · rintro rfl
        rfl
    · simp only [hname, decide_false, ih hnodup.2]
      refine ⟨.inr, fun hmem => hmem.resolve_left ?_⟩
      rintro rfl
      exact hname rfl

@[simp] theorem installedVersion_nil : installedVersion [] = fun _ => none := rfl

omit [DecidableEq ι] in
theorem installedVersion_eq_none {hs : List InstalledHarness} {name : Bytes} :
    installedVersion hs name = none ↔ ∀ h ∈ hs, h.name ≠ name := by
  simp [installedVersion]

omit [DecidableEq ι] in
theorem mem_addInstalled (name version : Bytes) {hs : List InstalledHarness}
    (hnodup : (hs.map (·.name)).Nodup) {x : InstalledHarness} :
    x ∈ addInstalled name version hs ↔ x = ⟨name, version⟩ ∨ x ∈ hs ∧ x.name ≠ name := by
  induction hs with
  | nil => simp [addInstalled]
  | cons h hs ih =>
    rw [List.map_cons, List.nodup_cons] at hnodup
    unfold addInstalled
    split_ifs with hname
    · have hne : ∀ y ∈ hs, y.name ≠ name := fun y hy heq =>
        hnodup.1 (hname.trans heq.symm ▸ List.mem_map_of_mem hy)
      rw [List.mem_cons, List.mem_cons, hname]
      refine or_congr_right ⟨fun hx => ⟨.inr hx, hne x hx⟩, fun hx => hx.1.resolve_left ?_⟩
      rintro rfl
      exact hx.2 hname
    · rw [List.mem_cons, List.mem_cons, ih hnodup.2]
      constructor
      · rintro (rfl | rfl | ⟨hx, hne⟩)
        · exact .inr ⟨.inl rfl, hname⟩
        · exact .inl rfl
        · exact .inr ⟨.inr hx, hne⟩
      · rintro (rfl | ⟨rfl | hx, hne⟩)
        · exact .inr (.inl rfl)
        · exact .inl rfl
        · exact .inr (.inr ⟨hx, hne⟩)

omit [DecidableEq ι] in
theorem names_addInstalled (name version : Bytes) {hs : List InstalledHarness}
    (hnodup : (hs.map (·.name)).Nodup) : ((addInstalled name version hs).map (·.name)).Nodup := by
  induction hs with
  | nil => exact List.nodup_singleton name
  | cons h hs ih =>
    rw [List.map_cons, List.nodup_cons] at hnodup
    unfold addInstalled
    split_ifs with hname
    · exact List.nodup_cons.mpr hnodup
    · refine List.nodup_cons.mpr ⟨fun hmem => ?_, ih hnodup.2⟩
      obtain ⟨x, hx, heq⟩ := List.mem_map.mp hmem
      rcases (mem_addInstalled _ _ hnodup.2).mp hx with rfl | ⟨hx, -⟩
      · exact hname heq.symm
      · exact hnodup.1 (List.mem_map.mpr ⟨x, hx, heq⟩)

omit [DecidableEq ι] in
theorem installedVersion_eq {hs : List InstalledHarness} (hnodup : (hs.map (·.name)).Nodup)
    {f : Bytes → Option Bytes} (h : ∀ name version, ⟨name, version⟩ ∈ hs ↔ f name = some version) :
    installedVersion hs = f := by
  funext name
  apply Option.ext
  intro version
  rw [installedVersion_eq_some hnodup, h]

omit [DecidableEq ι] in
/-- **A change keeps the registry valid and sets the version of its own harness only.** -/
theorem RegistryOp.change_spec (op : RegistryOp) {hs : List InstalledHarness} (hv : ValidRegistry hs) :
    ValidRegistry (op.change hs) ∧
      installedVersion (op.change hs) = op.update.apply (installedVersion hs) := by
  cases op with
  | add name version hversion =>
    have hnodup := names_addInstalled name.text version hv.nodup
    refine ⟨⟨fun x hx => ?_, hnodup⟩, installedVersion_eq hnodup fun n v => ?_⟩
    · rcases (mem_addInstalled _ _ hv.nodup).mp hx with rfl | ⟨hx, -⟩
      · exact ⟨name.word, name.plain, hversion⟩
      · exact hv.valid x hx
    · rw [mem_addInstalled _ _ hv.nodup, Update.apply]
      by_cases hn : n = name.text
      · subst hn
        simp [RegistryOp.update, RegistryOp.name, RegistryOp.version, eq_comm]
      · rw [RegistryOp.update, RegistryOp.name, Function.update_of_ne hn,
          installedVersion_eq_some hv.nodup]
        simp [hn]
  | remove name =>
    have hsub : (removeInstalled name hs).Sublist hs := List.filter_sublist
    have hnodup := (hsub.map (·.name)).nodup hv.nodup
    refine ⟨⟨fun x hx => hv.valid x (hsub.subset hx), hnodup⟩, installedVersion_eq hnodup fun n v => ?_⟩
    rw [removeInstalled, List.mem_filter, Update.apply]
    by_cases hn : n = name
    · subst hn
      simp [RegistryOp.update, RegistryOp.name, RegistryOp.version]
    · rw [RegistryOp.update, RegistryOp.name, Function.update_of_ne hn, installedVersion_eq_some hv.nodup]
      simp [hn]

/-- The versions that are read from what an operation writes. -/
theorem installedVersion_change (op : RegistryOp) {hs : List InstalledHarness} (hv : ValidRegistry hs) :
    installedVersion (entries (some (writeInstalled (op.change hs)))) =
      op.update.apply (installedVersion hs) := by
  obtain ⟨hvalid, hversions⟩ := op.change_spec hv
  rw [← hversions]
  apply installedVersion_eq (validRegistry_readInstalled _).nodup
  intro name version
  rw [installedVersion_eq_some hvalid.nodup]
  exact mem_readInstalled_writeInstalled hvalid

theorem validRegistry_nil : ValidRegistry [] := ⟨fun _ h => absurd h List.not_mem_nil, List.nodup_nil⟩

theorem validRegistry_entries (file : Option Bytes) : ValidRegistry (entries file) := by
  cases file with
  | none => exact validRegistry_nil
  | some content => exact validRegistry_readInstalled content

/-- What operations have read are registries. -/
def ReadsValid (s : RegistryState ι) : Prop := ∀ i hs, s.read i = some hs → ValidRegistry hs

/-- **A step of the operations is a step of updates of one key.** -/
theorem abstraction_step {s s' : RegistryState ι} {move : Move ι}
    (hstep : registryStep ops s move = some s') (hs : ReadsValid s) :
    step (fun i => (ops i).update) s.versions move = some s'.versions ∧ ReadsValid s' := by
  cases move with
  | read i ok =>
    obtain ⟨⟨hread, hsucceeded⟩, hs'⟩ := Option.ite_none_right_eq_some.mp hstep
    obtain rfl := Option.some.inj hs'
    constructor
    · have hcond : s.versions.copies i = none ∧ s.versions.done i = false := by
        simp [RegistryState.versions, hread, hsucceeded]
      rw [step, if_pos hcond]
      congr 1
      unfold RegistryState.versions
      congr 1
      funext j
      by_cases hj : j = i
      · subst hj
        cases ok <;> simp
      · simp [hj]
    · intro j hs' hj
      by_cases hji : j = i
      · subst hji
        simp only [Function.update_self, Option.some.injEq] at hj
        subst hj
        split
        · exact validRegistry_entries s.file
        · exact validRegistry_nil
      · simp only [Function.update_of_ne hji] at hj
        exact hs j hs' hj
  | write i =>
    unfold registryStep at hstep
    simp only at hstep
    split at hstep
    · cases hstep
    · rename_i hs₀ hread
      obtain rfl := Option.some.inj hstep
      have hvalid := hs i hs₀ hread
      constructor
      · have hcopy : s.versions.copies i = some (installedVersion hs₀) := by
          simp [RegistryState.versions, hread]
        unfold step
        simp only [hcopy]
        congr 1
        unfold RegistryState.versions
        congr 1
        · exact (installedVersion_change (ops i) hvalid).symm
        · funext j
          by_cases hj : j = i
          · subst hj
            simp
          · simp [hj]
      · intro j hs' hj
        by_cases hji : j = i
        · simp [hji] at hj
        · simp only [Function.update_of_ne hji] at hj
          exact hs j hs' hj

omit [DecidableEq ι] in
theorem nothingUnread_iff {s : RegistryState ι} {move : Move ι} :
    NothingUnread ops s move ↔ Harmless (fun i => (ops i).update) s.versions move := by
  cases move with
  | read i ok =>
    cases ok with
    | true => exact Iff.rfl
    | false =>
      simp only [NothingUnread, Harmless, RegistryState.versions, installedVersion_eq_none]
      constructor
      · intro h k hk x hx hname
        exact hk (hname ▸ h x hx)
      · intro h x hx
        by_contra hname
        exact h x.name hname x hx rfl
  | write i => exact Iff.rfl

omit [DecidableEq ι] in
theorem unreadKept_iff {s : RegistryState ι} {move : Move ι} :
    UnreadKept ops s move ↔ NothingUnread ops s move := by
  rw [nothingUnread_iff]
  cases move with
  | read i ok =>
    cases ok with
    | true => exact Iff.rfl
    | false =>
      simp only [UnreadKept, Harmless, RegistryState.versions,
        installedVersion_change (ops i) validRegistry_nil, Update.apply]
      refine forall₂_congr fun name hname => ?_
      have hother : Function.update (installedVersion []) (ops i).name (ops i).version name = none :=
        Function.update_of_ne hname _ _
      exact ⟨fun h => h.symm.trans hother, fun h => hother.trans h.symm⟩
  | write i => exact Iff.rfl

theorem abstraction_run {s s' : RegistryState ι} {ms : List (Move ι)}
    (hrun : run (registryStep ops) s ms = some s') (hs : ReadsValid s) :
    run (step fun i => (ops i).update) s.versions ms = some s'.versions := by
  induction ms generalizing s with
  | nil => exact congrArg (fun s : RegistryState ι => some s.versions) (Option.some.inj hrun)
  | cons move ms ih =>
    obtain ⟨s₁, hstep, hrest⟩ := run_cons_eq_some.mp hrun
    obtain ⟨habs, hs₁⟩ := abstraction_step hstep hs
    exact run_cons_eq_some.mpr ⟨_, habs, ih hrest hs₁⟩

theorem harmless_run {s s' : RegistryState ι} {ms : List (Move ι)}
    (hrun : run (registryStep ops) s ms = some s') (hs : ReadsValid s)
    (h : RunWhere (registryStep ops) (NothingUnread ops) s ms) :
    RunWhere (step fun i => (ops i).update) (Harmless fun i => (ops i).update) s.versions ms := by
  induction ms generalizing s with
  | nil => trivial
  | cons move ms ih =>
    obtain ⟨s₁, hstep, hrest⟩ := run_cons_eq_some.mp hrun
    obtain ⟨habs, hs₁⟩ := abstraction_step hstep hs
    refine ⟨nothingUnread_iff.mp h.1, fun t ht => ?_⟩
    obtain rfl := Option.some.inj (habs.symm.trans ht)
    exact ih hrest hs₁ (h.2 s₁ hstep)

end

/-! ## What is kept -/

/-- **Operations on distinct harnesses lose nothing exactly when the last rename builds on every operation
that succeeded and changed something, and no operation fails to read the entries of other harnesses. What
was read is read again after it was written.** -/
theorem registry_updates_kept_iff {ι : Type*} [DecidableEq ι] {ops : ι → RegistryOp}
    (hdistinct : Function.Injective fun i => (ops i).name) {file : Option Bytes} {ms : List (Move ι)}
    {s : RegistryState ι} (hrun : run (registryStep ops) (.start file) ms = some s) :
    ((UpdatesKept ops file s ∧ RunWhere (registryStep ops) (UnreadKept ops) (.start file) ms) ↔
      (∀ i, s.succeeded i = true → i ∈ lineage ms ∨
        installedVersion (entries file) (ops i).name = (ops i).version) ∧
      RunWhere (registryStep ops) (NothingUnread ops) (.start file) ms) ∧
    ∀ content, readInstalled (writeInstalled (readInstalled content)) = readInstalled content := by
  refine ⟨?_, readInstalled_writeInstalled⟩
  have hunread : UnreadKept ops = NothingUnread ops := by
    funext s move
    exact propext unreadKept_iff
  rw [hunread]
  refine and_congr_left fun hharmless => ?_
  have hvalid : ReadsValid (.start file : RegistryState ι) := fun _ _ h => absurd h nofun
  have hkeys : Function.Injective fun i => (ops i).update.key := hdistinct
  have hkept := kept_iff hkeys (harmless_run hrun hvalid hharmless) (abstraction_run hrun hvalid)
  exact Iff.trans ⟨fun h => ⟨h.updated, h.others⟩, fun h => ⟨h.updated, h.others⟩⟩ hkept

/-! ## A lost update -/

/-- Installing two harnesses at once. -/
def installBoth : Bool → RegistryOp
  | false => .add ⟨ascii "claude", Plain.word (by decide +kernel) (by decide), by decide⟩ (ascii "v1")
      (Plain.word (by decide +kernel) (by decide))
  | true => .add ⟨ascii "codex", Plain.word (by decide +kernel) (by decide), by decide⟩ (ascii "v2")
      (Plain.word (by decide +kernel) (by decide))

/-- Both read before either renames. -/
def overlapping : List (Move Bool) := [.read false true, .read true true, .write false, .write true]

/-- One after the other. -/
def consecutive : List (Move Bool) := [.read false true, .write false, .read true true, .write true]

theorem installBoth_distinct : Function.Injective fun i => (installBoth i).name := by
  decide

/-- **Of two installs that overlap the first is lost**, though both succeed. -/
theorem registry_update_lost : ∃ s, run (registryStep installBoth) (.start none) overlapping = some s ∧
    (∀ i, s.succeeded i = true) ∧ ¬ UpdatesKept installBoth none s := by
  refine ⟨_, rfl, by decide, fun h => ?_⟩
  have hclaude := h.updated false rfl
  revert hclaude
  decide +kernel

/-- Installs one after the other are kept. -/
theorem registry_updates_kept_example : ∃ s,
    run (registryStep installBoth) (.start none) consecutive = some s ∧
      UpdatesKept installBoth none s := by
  obtain ⟨s, hrun⟩ : ∃ s, run (registryStep installBoth) (.start none) consecutive = some s := ⟨_, rfl⟩
  refine ⟨s, hrun, ((registry_updates_kept_iff installBoth_distinct hrun).1.mpr ⟨fun i _ => ?_, ?_⟩).1⟩
  · exact .inl ((by decide : ∀ i, i ∈ lineage consecutive) i)
  · exact ⟨trivial, fun _ _ => ⟨trivial, fun _ _ => ⟨trivial, fun _ _ => ⟨trivial, fun _ _ => trivial⟩⟩⟩⟩

end Vhrn.Cli
