import Vhrn.Cli.ToolsTag
import Vhrn.Cli.ProxyAgreement
import Vhrn.Foundations.Continuation

/-!
# The Dockerfile of a tools layer

A Dockerfile has an instruction on each line, and a backslash at the end of a line continues it on the
next. The text for a tools layer is read back to what was declared (`declaredInstructions`) when no
command ends in a backslash (`dockerfile_iff`). A command that does absorbs the instruction that comes
after it, which for the last command is the one that gives the files back to their owner.
-/

namespace Vhrn.Cli

open Proxy (unlines unlines_eq_intercalate)

/-- The instructions of a Dockerfile. -/
def instructions (text : Bytes) : List Bytes :=
  Continuation.join 92 ((text.splitOn 10).filter fun line => !line.isEmpty)

/-- The reference of an image: a name with its registry, its tag and its digest. -/
structure ImageReference where
  text : Bytes
  plain : ∀ b ∈ text, Ascii.isAlnum b = true ∨
    b ∈ [(46 : UInt8), 95, 45, 47, 58, 64, 43, 91, 93]

/-- Installs packages and removes the lists that were fetched for it. -/
def aptInstruction (apt : List Bytes) : Bytes :=
  ascii "RUN apt-get update && apt-get install -y --no-install-recommends " ++ [32].intercalate apt ++
    ascii "     && rm -rf /var/lib/apt/lists/*"

/-- What is declared for a tools layer. -/
def declaredInstructions (base : Bytes) (tools : NormalizedTools) : List Bytes :=
  [ascii "FROM " ++ base, ascii "USER root", ascii "ENV HOME=/home/dev"] ++
    (if tools.apt = [] then [] else [aptInstruction tools.apt]) ++
    tools.run.map (ascii "RUN " ++ ·) ++ [ascii "RUN chown -R dev:dev /home/dev"]

/-! ## The lines of the text -/

/-- The first line of the installation, up to the backslash. -/
def aptHead (apt : List Bytes) : Bytes :=
  ascii "RUN apt-get update && apt-get install -y --no-install-recommends " ++ [32].intercalate apt ++
    ascii " "

def aptLines (apt : List Bytes) : List Bytes :=
  if apt = [] then [] else [aptHead apt ++ [92], ascii "    && rm -rf /var/lib/apt/lists/*"]

/-- The lines after the installation. -/
def runLines (run : List Bytes) : List Bytes :=
  run.map (ascii "RUN " ++ ·) ++ [ascii "RUN chown -R dev:dev /home/dev"]

def dockerfileLines (base : Bytes) (tools : NormalizedTools) : List Bytes :=
  (ascii "FROM " ++ base) :: ascii "USER root" :: ascii "ENV HOME=/home/dev" ::
    (aptLines tools.apt ++ runLines tools.run)

theorem unlines_append (ls ls' : List Bytes) : unlines (ls ++ ls') = unlines ls ++ unlines ls' := by
  rw [unlines, List.map_append, List.flatten_append]
  rfl

theorem toolsDockerfile_eq (base : Bytes) (tools : NormalizedTools) :
    toolsDockerfile base tools.apt tools.run = unlines (dockerfileLines base tools) := by
  have hapt : normalizeApt tools.apt = tools.apt := congrArg NormalizedTools.apt tools.new_self
  have hrun : normalizeRun tools.run = tools.run := congrArg NormalizedTools.run tools.new_self
  have hinstall : unlines (if tools.apt.isEmpty then [] else
      [ascii "RUN apt-get update && apt-get install -y --no-install-recommends " ++
        [32].intercalate tools.apt ++ ascii " \\\n    && rm -rf /var/lib/apt/lists/*"]) =
      unlines (aptLines tools.apt) := by
    have hsplit : ascii " \\\n    && rm -rf /var/lib/apt/lists/*" =
        ascii " " ++ [92, 10] ++ ascii "    && rm -rf /var/lib/apt/lists/*" := by decide
    unfold aptLines aptHead
    by_cases h : tools.apt = []
    · rw [if_pos h, h]
      rfl
    · rw [if_neg h, if_neg (by simpa using h), hsplit]
      simp [unlines]
  rw [toolsDockerfile, hapt, hrun, ← unlines_eq_intercalate (by simp), dockerfileLines, runLines]
  rw [unlines_append, unlines_append, unlines_append, hinstall, ← unlines_append, ← unlines_append,
    ← unlines_append, List.append_assoc, List.append_assoc]
  rfl

/-! ## Reading it back -/

/-- A text that is neither broken into lines nor continued. -/
def Whole (text : Bytes) : Prop := 10 ∉ text ∧ text.getLast? ≠ some 92

theorem ImageReference.whole (base : ImageReference) : Whole base.text := by
  have hbyte : ∀ b : UInt8, (Ascii.isAlnum b = true ∨ b ∈ [(46 : UInt8), 95, 45, 47, 58, 64, 43, 91, 93]) →
      b ≠ 10 ∧ b ≠ 92 := forall_byte (by decide +kernel)
  refine ⟨fun h => (hbyte 10 (base.plain 10 h)).1 rfl, fun h => ?_⟩
  exact (hbyte 92 (base.plain 92 (List.mem_of_getLast? h))).2 rfl

theorem getLast?_ascii_append {keyword : String} (hkeyword : (ascii keyword).getLast? = some 32)
    (text : Bytes) : (ascii keyword ++ text).getLast? = some 92 ↔ text.getLast? = some 92 := by
  cases text with
  | nil =>
    rw [List.append_nil, hkeyword]
    exact ⟨nofun, nofun⟩
  | cons b text => rw [List.getLast?_append_of_ne_nil _ (List.cons_ne_nil _ _)]

theorem two_lt_length_of_mem_runLines (run : List Bytes) :
    ∀ line ∈ runLines run, 2 < line.length := by
  intro line hline
  rcases List.mem_append.mp hline with hline | hline
  · obtain ⟨entry, -, rfl⟩ := List.mem_map.mp hline
    have hfour : (ascii "RUN ").length = 4 := by decide
    rw [List.length_append]
    omega
  · rw [List.mem_singleton.mp hline]
    decide

/-- **The lines after the installation are read back exactly when no command is continued.** -/
theorem join_runLines_iff (run : List Bytes) : Continuation.join 92 (runLines run) = runLines run ↔
    ∀ entry ∈ run, entry.getLast? ≠ some 92 := by
  induction run with
  | nil =>
    have hlast : Continuation.join 92 (runLines []) = runLines [] :=
      Continuation.join_cons_of_not_continued (by decide) []
    exact iff_of_true hlast fun _ h => (List.not_mem_nil h).elim
  | cons entry run ih =>
    rw [List.forall_mem_cons, ← ih]
    refine (Continuation.join_cons_eq_cons_iff (List.append_ne_nil_of_right_ne_nil _
      (List.cons_ne_nil _ _)) (two_lt_length_of_mem_runLines run)).trans ?_
    rw [Ne, getLast?_ascii_append (by decide)]
    exact Iff.rfl

/-- The installation is one instruction. -/
theorem join_aptLines (apt lines : List Bytes) : Continuation.join 92 (aptLines apt ++ lines) =
    (if apt = [] then [] else [aptInstruction apt]) ++ Continuation.join 92 lines := by
  unfold aptLines
  by_cases h : apt = []
  · rw [if_pos h, if_pos h]
    rfl
  · have htail : Continuation.join 92 (ascii "    && rm -rf /var/lib/apt/lists/*" :: lines) = _ :=
      Continuation.join_cons_of_not_continued (by decide) lines
    have hspaces : ascii " " ++ ascii "    && rm -rf /var/lib/apt/lists/*" =
        ascii "     && rm -rf /var/lib/apt/lists/*" := by decide
    rw [if_neg h, if_neg h]
    show Continuation.join 92 ((aptHead apt ++ [92]) :: (_ :: lines)) = _
    rw [Continuation.join_cons_of_continued List.getLast?_concat htail, List.dropLast_concat, aptHead,
      List.append_assoc, hspaces]
    rfl

theorem two_lt_length_of_mem (base : Bytes) (tools : NormalizedTools) :
    ∀ line ∈ dockerfileLines base tools, 2 < line.length := by
  have hrun : ∀ line ∈ runLines tools.run, 2 < line.length := two_lt_length_of_mem_runLines _
  have hapt : ∀ line ∈ aptLines tools.apt, 2 < line.length := by
    unfold aptLines
    split
    · exact fun _ h => (List.not_mem_nil h).elim
    · refine List.forall_mem_cons.mpr ⟨?_, List.forall_mem_singleton.mpr (by decide)⟩
      rw [List.length_append, aptHead, List.length_append]
      have hlong : (ascii " ").length + ([92] : Bytes).length = 2 := by decide
      have hpos : 0 < (ascii
        "RUN apt-get update && apt-get install -y --no-install-recommends ").length := by decide
      rw [List.length_append]
      omega
  have hfrom : 2 < (ascii "FROM " ++ base).length := by
    have hfive : (ascii "FROM ").length = 5 := by decide
    rw [List.length_append]
    omega
  refine List.forall_mem_cons.mpr ⟨hfrom, List.forall_mem_cons.mpr ⟨by decide,
    List.forall_mem_cons.mpr ⟨by decide, fun line hline => ?_⟩⟩⟩
  exact (List.mem_append.mp hline).elim (hapt line) (hrun line)

/-- The lines are read back when neither the base nor a command is continued. -/
theorem join_dockerfileLines_iff (base : Bytes) (tools : NormalizedTools) :
    Continuation.join 92 (dockerfileLines base tools) = declaredInstructions base tools ↔
      base.getLast? ≠ some 92 ∧ ∀ entry ∈ tools.run, entry.getLast? ≠ some 92 := by
  have hdeclared : declaredInstructions base tools = (ascii "FROM " ++ base) :: ascii "USER root" ::
      ascii "ENV HOME=/home/dev" ::
        ((if tools.apt = [] then [] else [aptInstruction tools.apt]) ++ runLines tools.run) := by
    rw [declaredInstructions, runLines, List.append_assoc, List.append_assoc]
    rfl
  have htail : Continuation.join 92 (ascii "USER root" :: ascii "ENV HOME=/home/dev" ::
      (aptLines tools.apt ++ runLines tools.run)) = ascii "USER root" :: ascii "ENV HOME=/home/dev" ::
        ((if tools.apt = [] then [] else [aptInstruction tools.apt]) ++
          Continuation.join 92 (runLines tools.run)) := by
    rw [Continuation.join_cons_of_not_continued (by decide),
      Continuation.join_cons_of_not_continued (by decide), join_aptLines]
  rw [hdeclared, dockerfileLines, Continuation.join_cons_eq_cons_iff (List.cons_ne_nil _ _)
    (List.forall_mem_cons.mp (two_lt_length_of_mem base tools)).2, htail, Ne,
    getLast?_ascii_append (by decide), ← join_runLines_iff]
  simp

theorem not_mem_lines {base : Bytes} (hbase : 10 ∉ base) (tools : LineTools) :
    ∀ line ∈ dockerfileLines base tools.toNormalizedTools, 10 ∉ line := by
  have hrun : ∀ line ∈ runLines tools.run, 10 ∉ line := by
    intro line hline
    rcases List.mem_append.mp hline with hline | hline
    · obtain ⟨entry, hentry, rfl⟩ := List.mem_map.mp hline
      rw [List.mem_append, not_or]
      exact ⟨by decide, tools.singleLines entry (List.mem_append_right _ hentry)⟩
    · rw [List.mem_singleton.mp hline]
      decide
  have hpackages : 10 ∉ [32].intercalate tools.apt := by
    intro h
    rcases mem_intercalate h with h | ⟨entry, hentry, h⟩
    · cases h
    · exact tools.singleLines entry (List.mem_append_left _ hentry) h
  have hapt : ∀ line ∈ aptLines tools.apt, 10 ∉ line := by
    unfold aptLines
    split
    · exact fun _ h => (List.not_mem_nil h).elim
    · refine List.forall_mem_cons.mpr ⟨?_, List.forall_mem_singleton.mpr (by decide)⟩
      simp only [aptHead, List.mem_append, not_or]
      exact ⟨⟨⟨by decide, hpackages⟩, by decide⟩, by decide⟩
  have hfrom : 10 ∉ ascii "FROM " ++ base := by
    rw [List.mem_append, not_or]
    exact ⟨by decide, hbase⟩
  refine List.forall_mem_cons.mpr ⟨hfrom, List.forall_mem_cons.mpr ⟨by decide,
    List.forall_mem_cons.mpr ⟨by decide, fun line hline => ?_⟩⟩⟩
  exact (List.mem_append.mp hline).elim (hapt line) (hrun line)

/-- **The text is read back to what was declared exactly when no command ends in a backslash**, for a
base that is on one line. -/
theorem instructions_toolsDockerfile_iff (base : Bytes) (tools : LineTools) :
    instructions (toolsDockerfile base tools.apt tools.run) =
        declaredInstructions base tools.toNormalizedTools ↔
      Whole base ∧ ∀ entry ∈ tools.run, entry.getLast? ≠ some 92 := by
  rw [toolsDockerfile_eq, Whole, and_assoc]
  by_cases hbase : 10 ∈ base
  · refine iff_of_false (fun h => ?_) fun h => h.1 hbase
    have hmem : ascii "FROM " ++ base ∈
        instructions (unlines (dockerfileLines base tools.toNormalizedTools)) := by
      rw [h]
      exact List.mem_cons_self
    obtain ⟨line, hline, hin⟩ :=
      Continuation.exists_mem_of_mem_join hmem (List.mem_append_right _ hbase)
    exact not_mem_of_mem_splitOn (List.mem_filter.mp hline).1 hin
  · have hlines : (dockerfileLines base tools.toNormalizedTools).filter (fun line => !line.isEmpty) =
        dockerfileLines base tools.toNormalizedTools := by
      refine List.filter_eq_self.mpr fun line hline => ?_
      have hlong := two_lt_length_of_mem base _ line hline
      cases line with
      | nil => exact absurd hlong (by decide)
      | cons b line => rfl
    rw [instructions, splitOn_unlines (not_mem_lines hbase tools), List.filter_append, hlines,
      and_iff_right hbase, ← join_dockerfileLines_iff]
    show Continuation.join 92 (_ ++ []) = _ ↔ _
    rw [List.append_nil]

/-- **The Dockerfile has the declared instructions exactly when no command ends in a backslash.** -/
theorem dockerfile_iff (base : ImageReference) (tools : LineTools) :
    instructions (toolsDockerfile base.text tools.apt tools.run) =
        declaredInstructions base.text tools.toNormalizedTools ↔
      ∀ entry ∈ tools.run, entry.getLast? ≠ some 92 :=
  (instructions_toolsDockerfile_iff base.text tools).trans (and_iff_right base.whole)

/-- The command `make` with a backslash after it. -/
def continuedTools : LineTools where
  toNormalizedTools := .new [] [ascii "make \\"]
  singleLines := by decide +kernel

example : instructions (toolsDockerfile (ascii "vhrn-claude") continuedTools.apt continuedTools.run) =
    [ascii "FROM vhrn-claude", ascii "USER root", ascii "ENV HOME=/home/dev",
      ascii "RUN make RUN chown -R dev:dev /home/dev"] := by decide +kernel

/-- The last command absorbs the instruction that gives the files back. -/
theorem owner_instruction_absorbed : ¬ ∀ (base : ImageReference) (tools : LineTools),
    instructions (toolsDockerfile base.text tools.apt tools.run) =
      declaredInstructions base.text tools.toNormalizedTools := by
  intro h
  let base : ImageReference := ⟨ascii "vhrn-claude", by decide +kernel⟩
  have hwhole := (instructions_toolsDockerfile_iff base.text continuedTools).mp (h base _)
  have hmem : ascii "make \\" ∈ continuedTools.run := by decide +kernel
  exact hwhole.2 _ hmem (by decide)

end Vhrn.Cli
