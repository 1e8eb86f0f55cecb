import Vhrn.Foundations.Numerals
import Vhrn.Foundations.Words

/-!
# The tag of a tools image

The image of a harness with the tools of a profile is built once and found again by its tag, which is
computed from the base image and the normalised tools. The text that is hashed has the packages on lines
of their own between a line `apt` and a line `run`, and the commands after it. Two profiles have the same
text only for the same tools, unless a package and a command are called `run` themselves
(`preimage_eq_iff`).
-/

namespace Vhrn.Cli

open Numerals

/-! ## Normalised tools -/

/-- The packages that are not empty, without repetitions. -/
def distinctPackages (seen : List Bytes) : List Bytes → List Bytes
  | [] => []
  | p :: pkgs =>
    let p := trim p
    if p.isEmpty || seen.contains p then distinctPackages seen pkgs
    else p :: distinctPackages (p :: seen) pkgs

/-- Packages are a set, so their order in the configuration does not matter. -/
def normalizeApt (pkgs : List Bytes) : List Bytes :=
  (distinctPackages [] pkgs).insertionSort (· ≤ ·)

/-- Commands keep their order and their repetitions. -/
def normalizeRun (run : List Bytes) : List Bytes := (run.map trim).filter fun l => !l.isEmpty

theorem mem_distinctPackages {seen pkgs : List Bytes} {p : Bytes} :
    p ∈ distinctPackages seen pkgs ↔ p ≠ [] ∧ p ∉ seen ∧ p ∈ pkgs.map trim := by
  induction pkgs generalizing seen with
  | nil => simp [distinctPackages]
  | cons q pkgs ih =>
    rw [distinctPackages]
    by_cases hskip : ((trim q).isEmpty || seen.contains (trim q)) = true
    · rw [if_pos hskip, ih, List.map_cons, List.mem_cons]
      rw [Bool.or_eq_true, List.isEmpty_iff, List.contains_iff_mem] at hskip
      constructor
      · rintro ⟨hne, hseen, hmem⟩
        exact ⟨hne, hseen, .inr hmem⟩
      · rintro ⟨hne, hseen, rfl | hmem⟩
        · exact absurd hskip (not_or.mpr ⟨hne, hseen⟩)
        · exact ⟨hne, hseen, hmem⟩
    · rw [if_neg hskip, List.mem_cons, ih, List.map_cons, List.mem_cons, List.mem_cons]
      rw [Bool.or_eq_true, List.isEmpty_iff, List.contains_iff_mem, not_or] at hskip
      constructor
      · rintro (rfl | ⟨hne, hseen, hmem⟩)
        · exact ⟨hskip.1, hskip.2, .inl rfl⟩
        · exact ⟨hne, fun h => hseen (.inr h), .inr hmem⟩
      · rintro ⟨hne, hseen, rfl | hmem⟩
        · exact .inl rfl
        · by_cases heq : p = trim q
          · exact .inl heq
          · exact .inr ⟨hne, not_or.mpr ⟨heq, hseen⟩, hmem⟩

theorem nodup_distinctPackages (seen pkgs : List Bytes) : (distinctPackages seen pkgs).Nodup := by
  induction pkgs generalizing seen with
  | nil => exact List.nodup_nil
  | cons p pkgs ih =>
    rw [distinctPackages]
    split
    · exact ih seen
    · refine List.nodup_cons.mpr ⟨fun hmem => ?_, ih _⟩
      exact (mem_distinctPackages.mp hmem).2.1 List.mem_cons_self

theorem distinctPackages_eq_self {seen pkgs : List Bytes} (hnodup : pkgs.Nodup)
    (hpkgs : ∀ p ∈ pkgs, p ≠ [] ∧ trim p = p ∧ p ∉ seen) : distinctPackages seen pkgs = pkgs := by
  induction pkgs generalizing seen with
  | nil => rfl
  | cons p pkgs ih =>
    obtain ⟨⟨hne, htrim, hseen⟩, hrest⟩ := List.forall_mem_cons.mp hpkgs
    obtain ⟨hp, hnodup⟩ := List.nodup_cons.mp hnodup
    rw [distinctPackages, htrim, if_neg (by simp [hne, hseen]), ih hnodup fun q hq => ?_]
    obtain ⟨hqne, hqtrim, hqseen⟩ := hrest q hq
    refine ⟨hqne, hqtrim, fun h => ?_⟩
    rcases List.mem_cons.mp h with rfl | h
    · exact hp hq
    · exact hqseen h

theorem mem_normalizeApt {pkgs : List Bytes} {p : Bytes} :
    p ∈ normalizeApt pkgs ↔ p ≠ [] ∧ p ∈ pkgs.map trim := by
  rw [normalizeApt, (List.perm_insertionSort _ _).mem_iff, mem_distinctPackages]
  simp

theorem mem_normalizeRun {run : List Bytes} {l : Bytes} :
    l ∈ normalizeRun run ↔ l ≠ [] ∧ l ∈ run.map trim := by
  rw [normalizeRun, List.mem_filter, and_comm, Bool.not_eq_true', ← Bool.not_eq_true,
    List.isEmpty_iff]

/-- **The normalised packages depend on the set of packages only.** -/
theorem normalizeApt_congr {pkgs pkgs' : List Bytes}
    (h : ∀ p, p ≠ [] → (p ∈ pkgs.map trim ↔ p ∈ pkgs'.map trim)) :
    normalizeApt pkgs = normalizeApt pkgs' := by
  have hperm : (distinctPackages [] pkgs).Perm (distinctPackages [] pkgs') := by
    refine (List.perm_ext_iff_of_nodup (nodup_distinctPackages _ _) (nodup_distinctPackages _ _)).mpr
      fun p => ?_
    rw [mem_distinctPackages, mem_distinctPackages]
    exact and_congr_right fun hne => and_congr_right' (h p hne)
  have hsorted (pkgs : List Bytes) := List.pairwise_insertionSort (· ≤ ·) (distinctPackages [] pkgs)
  refine List.Perm.eq_of_pairwise (fun a b _ _ hab hba => ?_) (hsorted pkgs) (hsorted pkgs') ?_
  · exact Std.Antisymm.antisymm a b hab hba
  · exact (List.perm_insertionSort _ _).trans (hperm.trans (List.perm_insertionSort _ _).symm)

/-- The canonical identity of a tools layer. -/
structure NormalizedTools where
  apt : List Bytes
  run : List Bytes
  sorted : apt.Pairwise (· ≤ ·)
  nodup : apt.Nodup
  apt_trimmed : ∀ p ∈ apt, p ≠ [] ∧ trim p = p
  run_trimmed : ∀ l ∈ run, l ≠ [] ∧ trim l = l

namespace NormalizedTools

theorem ext {t t' : NormalizedTools} (hapt : t.apt = t'.apt) (hrun : t.run = t'.run) : t = t' := by
  cases t
  cases t'
  cases hapt
  cases hrun
  rfl

/-- An entry that is not empty and comes from a trimmed text. -/
theorem trimmed_of_mem {texts : List Bytes} {p : Bytes} (h : p ≠ [] ∧ p ∈ texts.map trim) :
    p ≠ [] ∧ trim p = p := by
  obtain ⟨text, -, rfl⟩ := List.mem_map.mp h.2
  exact ⟨h.1, trim_trim text⟩

def new (apt run : List Bytes) : NormalizedTools where
  apt := normalizeApt apt
  run := normalizeRun run
  sorted := List.pairwise_insertionSort (· ≤ ·) _
  nodup := (List.perm_insertionSort _ _).nodup_iff.mpr (nodup_distinctPackages _ _)
  apt_trimmed _ h := trimmed_of_mem (mem_normalizeApt.mp h)
  run_trimmed _ h := trimmed_of_mem (mem_normalizeRun.mp h)

/-- Normalising once more changes nothing. -/
theorem new_self (tools : NormalizedTools) : new tools.apt tools.run = tools := by
  refine ext ?_ ?_
  · show (distinctPackages [] tools.apt).insertionSort (· ≤ ·) = tools.apt
    rw [distinctPackages_eq_self tools.nodup fun p hp =>
      ⟨(tools.apt_trimmed p hp).1, (tools.apt_trimmed p hp).2, List.not_mem_nil⟩]
    exact tools.sorted.insertionSort_eq
  · show (tools.run.map trim).filter (fun l => !l.isEmpty) = tools.run
    rw [List.map_congr_left (fun l hl => (tools.run_trimmed l hl).2), List.map_id',
      List.filter_eq_self.mpr fun l hl => by simp [(tools.run_trimmed l hl).1]]

def isEmpty (tools : NormalizedTools) : Bool := tools.apt.isEmpty && tools.run.isEmpty

/-- No entry spans several lines. -/
def SingleLines (tools : NormalizedTools) : Prop := ∀ entry ∈ tools.apt ++ tools.run, 10 ∉ entry

instance (tools : NormalizedTools) : Decidable tools.SingleLines :=
  inferInstanceAs (Decidable (∀ entry ∈ tools.apt ++ tools.run, ¬ 10 ∈ entry))

end NormalizedTools

/-! ## The tag -/

/-- The text that is hashed. -/
def toolsPreimage (baseId : Bytes) (tools : NormalizedTools) : Bytes :=
  baseId ++ ascii "\napt\n" ++ [10].intercalate tools.apt ++ ascii "\nrun\n" ++
    [10].intercalate tools.run

/-- Two hexadecimal digits for each octet. -/
def hexEncode (bytes : Bytes) : Bytes :=
  bytes.flatMap fun b => [digitByte (b.toNat / 16), digitByte (b.toNat % 16)]

/-- The digits of a digest that go into a tag. -/
def shortDigest (sha256 : Bytes → Bytes) (text : Bytes) : Bytes := (hexEncode (sha256 text)).take 12

def toolsTagFor (sha256 : Bytes → Bytes) (tagBase baseId : Bytes) (tools : NormalizedTools) : Bytes :=
  tagBase ++ ascii "-tools-" ++ shortDigest sha256 (toolsPreimage baseId tools)

/-! ## The image -/

/-- The Dockerfile of a tools layer. -/
def toolsDockerfile (baseImage : Bytes) (apt run : List Bytes) : Bytes :=
  let apt := normalizeApt apt
  let install := if apt.isEmpty then [] else
    [ascii "RUN apt-get update && apt-get install -y --no-install-recommends " ++
      [32].intercalate apt ++ ascii " \\\n    && rm -rf /var/lib/apt/lists/*"]
  [10].intercalate ([ascii "FROM " ++ baseImage, ascii "USER root", ascii "ENV HOME=/home/dev"] ++
    install ++ (normalizeRun run).map (ascii "RUN " ++ ·) ++
    [ascii "RUN chown -R dev:dev /home/dev"]) ++ [10]

/-- What a container engine does about images. A build fails with a message. -/
structure Engine where
  imageId : Bytes → Option Bytes
  imageExists : Bytes → Bool
  build : (tag dockerfile : Bytes) → Except Bytes Unit

inductive ToolsError
  | spansLines (entry : Bytes)
  | buildFailed (message : Bytes)
  deriving DecidableEq

/-- The image to run: the given one without tools, else the tools image, which is built once. -/
def ensureToolsImage (sha256 : Bytes → Bytes) (engine : Engine) (fromImage tagBase : Bytes)
    (apt run : List Bytes) : Except ToolsError Bytes :=
  let tools := NormalizedTools.new apt run
  if tools.isEmpty then .ok fromImage
  else match (tools.apt ++ tools.run).find? fun entry => entry.contains 10 with
    | some entry => .error (.spansLines entry)
    | none =>
      let baseId := (engine.imageId fromImage).getD fromImage
      let tag := toolsTagFor sha256 tagBase baseId tools
      if engine.imageExists tag then .ok tag
      else match engine.build tag (toolsDockerfile fromImage tools.apt tools.run) with
        | .ok () => .ok tag
        | .error message => .error (.buildFailed message)

/-! ## What the hashed text tells -/

/-- Some packages of the second tools, from one called `run` on, are commands of the first. -/
def Shifted (tools tools' : NormalizedTools) : Prop :=
  ∃ between, tools.apt ≠ [] ∧ tools'.run ≠ [] ∧
    tools'.apt = tools.apt ++ ascii "run" :: between ∧
    tools.run = between ++ ascii "run" :: tools'.run

/-- The lines of the hashed text after the line `apt`. -/
def sectionLines (tools : NormalizedTools) : List Bytes :=
  parts tools.apt ++ ascii "run" :: parts tools.run

section

variable {tools tools' : NormalizedTools}

theorem Shifted.ne (h : Shifted tools tools') : tools ≠ tools' := by
  rintro rfl
  obtain ⟨between, -, -, hapt, -⟩ := h
  have hlength := congrArg List.length hapt
  rw [List.length_append, List.length_cons] at hlength
  omega

theorem NormalizedTools.nil_not_mem_apt (tools : NormalizedTools) : [] ∉ tools.apt :=
  fun h => (tools.apt_trimmed [] h).1 rfl

theorem NormalizedTools.nil_not_mem_run (tools : NormalizedTools) : [] ∉ tools.run :=
  fun h => (tools.run_trimmed [] h).1 rfl

theorem toolsPreimage_eq (baseId : Bytes) (tools : NormalizedTools) : toolsPreimage baseId tools =
    baseId ++ ascii "\napt\n" ++ [10].intercalate (sectionLines tools) := by
  have hseparator : ascii "\nrun\n" = 10 :: (ascii "run" ++ [10]) := rfl
  rw [toolsPreimage, sectionLines, intercalate_append (parts_ne_nil _) (List.cons_ne_nil _ _),
    List.intercalate_cons_of_ne_nil (parts_ne_nil _), intercalate_parts, intercalate_parts, hseparator]
  simp only [List.append_assoc, List.cons_append]

theorem splitOn_sectionLines (h : tools.SingleLines) :
    ([10].intercalate (sectionLines tools)).splitOn 10 = sectionLines tools := by
  refine List.splitOn_intercalate 10 (fun line hline => ?_) (by simp [sectionLines])
  rcases List.mem_append.mp hline with hline | hline
  · rcases mem_parts hline with rfl | hline
    · exact List.not_mem_nil
    · exact h line (List.mem_append_left _ hline)
  · rcases List.mem_cons.mp hline with rfl | hline
    · decide
    · rcases mem_parts hline with rfl | hline
      · exact List.not_mem_nil
      · exact h line (List.mem_append_right _ hline)

/-- Sections that meet elsewhere. -/
theorem shifted_of_sections {between : List Bytes}
    (hapt : parts tools'.apt = parts tools.apt ++ ascii "run" :: between)
    (hrun : parts tools.run = between ++ ascii "run" :: parts tools'.run) : Shifted tools tools' := by
  have hpos := List.length_pos_of_ne_nil (parts_ne_nil tools.apt)
  have hpos' := List.length_pos_of_ne_nil (parts_ne_nil tools'.run)
  have haptLength : 1 < (parts tools'.apt).length := by
    rw [hapt, List.length_append, List.length_cons]
    omega
  have hrunLength : 1 < (parts tools.run).length := by
    rw [hrun, List.length_append, List.length_cons]
    omega
  obtain ⟨-, hapt'⟩ := parts_eq_of_length haptLength
  obtain ⟨-, hrun'⟩ := parts_eq_of_length hrunLength
  have hne : tools.apt ≠ [] := by
    intro hnil
    rw [hapt', hnil] at hapt
    exact tools'.nil_not_mem_apt (hapt ▸ List.mem_append_left _ (List.mem_singleton_self _))
  have hne' : tools'.run ≠ [] := by
    intro hnil
    rw [hrun', hnil] at hrun
    refine tools.nil_not_mem_run (hrun ▸ List.mem_append_right _ (List.mem_cons_of_mem _ ?_))
    exact List.mem_singleton_self _
  refine ⟨between, hne, hne', ?_, ?_⟩
  · rw [← hapt', hapt, parts, if_neg hne]
  · rw [← hrun', hrun, parts, if_neg hne']

/-- **Equal texts are of equal tools, or of tools that are shifted.** -/
theorem preimage_eq_iff (h : tools.SingleLines) (h' : tools'.SingleLines) (baseId : Bytes) :
    toolsPreimage baseId tools = toolsPreimage baseId tools' ↔
      tools = tools' ∨ Shifted tools tools' ∨ Shifted tools' tools := by
  have hlines : toolsPreimage baseId tools = toolsPreimage baseId tools' ↔
      sectionLines tools = sectionLines tools' := by
    rw [toolsPreimage_eq, toolsPreimage_eq, List.append_cancel_left_eq]
    constructor
    · intro heq
      have hsplit := congrArg (List.splitOn 10) heq
      rwa [splitOn_sectionLines h, splitOn_sectionLines h'] at hsplit
    · intro heq
      rw [heq]
  rw [hlines, sectionLines, sectionLines, append_mark_append_iff]
  constructor
  · rintro (⟨hapt, hrun⟩ | ⟨between, hapt, hrun⟩ | ⟨between, hapt, hrun⟩)
    · exact .inl (NormalizedTools.ext
        (parts_injective tools.nil_not_mem_apt tools'.nil_not_mem_apt hapt)
        (parts_injective tools.nil_not_mem_run tools'.nil_not_mem_run hrun))
    · exact .inr (.inl (shifted_of_sections hapt hrun))
    · exact .inr (.inr (shifted_of_sections hapt hrun))
  · rintro (rfl | ⟨between, hne, hne', hapt, hrun⟩ | ⟨between, hne, hne', hapt, hrun⟩)
    · exact .inl ⟨rfl, rfl⟩
    · refine .inr (.inl ⟨between, ?_, ?_⟩)
      · rw [parts, hapt, if_neg (by simp), parts, if_neg hne]
      · rw [parts, hrun, if_neg (by simp), parts, if_neg hne']
    · refine .inr (.inr ⟨between, ?_, ?_⟩)
      · rw [parts, hapt, if_neg (by simp), parts, if_neg hne]
      · rw [parts, hrun, if_neg (by simp), parts, if_neg hne']

end

/-! ## What the tag tells -/

/-- Tools whose entries are on one line each, as those of a tools image are. -/
structure LineTools extends NormalizedTools where
  singleLines : toNormalizedTools.SingleLines

theorem LineTools.ext {t t' : LineTools} (h : t.toNormalizedTools = t'.toNormalizedTools) :
    t = t' := by
  cases t
  cases t'
  cases h
  rfl

/-- The short digests of two texts differ unless the texts are the same. -/
def Distinguishes (sha256 : Bytes → Bytes) (text text' : Bytes) : Prop :=
  shortDigest sha256 text = shortDigest sha256 text' → text = text'

/-- The image of some tools is the one of their tag, and no entry of them spans several lines. -/
theorem ensureToolsImage_ok {sha256 : Bytes → Bytes} {engine : Engine} {fromImage tagBase : Bytes}
    {apt run : List Bytes} {image : Bytes} (hne : (NormalizedTools.new apt run).isEmpty = false)
    (h : ensureToolsImage sha256 engine fromImage tagBase apt run = .ok image) :
    (NormalizedTools.new apt run).SingleLines ∧
      image = toolsTagFor sha256 tagBase ((engine.imageId fromImage).getD fromImage)
        (NormalizedTools.new apt run) := by
  unfold ensureToolsImage at h
  simp only at h
  rw [hne, if_neg Bool.false_ne_true] at h
  split at h
  · cases h
  · rename_i hfind
    refine ⟨fun entry hentry => ?_, ?_⟩
    · simpa using List.find?_eq_none.mp hfind entry hentry
    · split at h
      · exact (Except.ok.inj h).symm
      · split at h
        · exact (Except.ok.inj h).symm
        · cases h

/-- **The tag identifies the tools exactly when they are not shifted**: the hashed texts of two tools for
one base are equal for equal tools only. Two profiles whose texts the hash tells apart then get the same
image for equal tools only, and the packages of a profile may be in any order and repeated. -/
theorem tools_tag_iff (baseId : Bytes) (tools tools' : LineTools) :
    ((toolsPreimage baseId tools.toNormalizedTools = toolsPreimage baseId tools'.toNormalizedTools ↔
        tools = tools') ↔
      ¬ Shifted tools.toNormalizedTools tools'.toNormalizedTools ∧
        ¬ Shifted tools'.toNormalizedTools tools.toNormalizedTools) ∧
    (∀ (sha256 : Bytes → Bytes) (engine : Engine) (fromImage tagBase image : Bytes)
      (apt run apt' run' : List Bytes),
      let tools := NormalizedTools.new apt run
      let tools' := NormalizedTools.new apt' run'
      let baseId := (engine.imageId fromImage).getD fromImage
      tools.isEmpty = false → tools'.isEmpty = false →
        Distinguishes sha256 (toolsPreimage baseId tools) (toolsPreimage baseId tools') →
        ensureToolsImage sha256 engine fromImage tagBase apt run = .ok image →
        ensureToolsImage sha256 engine fromImage tagBase apt' run' = .ok image →
        tools = tools' ∨ Shifted tools tools' ∨ Shifted tools' tools) ∧
    (∀ (sha256 : Bytes → Bytes) (tagBase baseId : Bytes) (apt apt' run : List Bytes),
      (∀ p, p ≠ [] → (p ∈ apt.map trim ↔ p ∈ apt'.map trim)) →
        toolsTagFor sha256 tagBase baseId (.new apt run) =
          toolsTagFor sha256 tagBase baseId (.new apt' run)) := by
  refine ⟨?_, ?_, fun sha256 tagBase baseId apt apt' run hapt => ?_⟩
  · rw [preimage_eq_iff tools.singleLines tools'.singleLines, ← not_or]
    constructor
    · rintro h hshifted
      obtain rfl := h.mp (.inr hshifted)
      rcases hshifted with hshifted | hshifted
      · exact hshifted.ne rfl
      · exact hshifted.ne rfl
    · intro h
      constructor
      · rintro (heq | hshifted)
        · exact LineTools.ext heq
        · exact absurd hshifted h
      · rintro rfl
        exact .inl rfl
  · intro sha256 engine fromImage tagBase image apt run apt' run' tools tools' baseId hne hne' hhash
      h h'
    obtain ⟨hlines, himage⟩ := ensureToolsImage_ok hne h
    obtain ⟨hlines', himage'⟩ := ensureToolsImage_ok hne' h'
    have hdigest := himage.symm.trans himage'
    rw [toolsTagFor, toolsTagFor, List.append_cancel_left_eq] at hdigest
    exact (preimage_eq_iff hlines hlines' baseId).mp (hhash hdigest)
  · have hnew : NormalizedTools.new apt run = NormalizedTools.new apt' run :=
      NormalizedTools.ext (normalizeApt_congr hapt) rfl
    rw [hnew]

/-- The package `git` with the commands `run` and `make`, and the packages `git` and `run` with the
command `make`. -/
theorem tools_tag_shared : ¬ ∀ (baseId : Bytes) (tools tools' : LineTools),
    toolsPreimage baseId tools.toNormalizedTools = toolsPreimage baseId tools'.toNormalizedTools ↔
      tools = tools' := by
  intro h
  let first : LineTools :=
    { toNormalizedTools := .new [ascii "git"] [ascii "run", ascii "make"]
      singleLines := by decide +kernel }
  let second : LineTools :=
    { toNormalizedTools := .new [ascii "git", ascii "run"] [ascii "make"]
      singleLines := by decide +kernel }
  have hsame := (h [] first second).mp (by decide +kernel)
  have hlength : first.apt.length = second.apt.length := by rw [hsame]
  exact absurd hlength (by decide +kernel)

end Vhrn.Cli
