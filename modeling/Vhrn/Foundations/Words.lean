import Vhrn.Foundations.Split

/-!
# Words and lines of a text

The words of a text are what Unicode white space separates (`splitWhitespace`). A `Plain` text has no
white space and only ASCII octets: it is a word of its own, and it ends at a tab. In general a `Word` is
a text in which no white space starts; words are what texts split into
(`word_of_mem_splitWhitespace`), and two of them with a space between them split into the two
(`splitWhitespace_pair`). The lines of a text
whose first part ends with a line feed are the lines of its two parts (`lines_append`).
-/

namespace Vhrn

/-! ## Words -/

/-- The word that has been read, unless there is none. -/
def endWord (word : Bytes) : List Bytes := if word = [] then [] else [word]

/-- The length of the encoding of a white space scalar at the start of a text, 0 without one. -/
def spaceLength : Bytes → ℕ
  | [] => 0
  | b :: s =>
    if isSpace1 b then 1
    else match s with
      | [] => 0
      | c :: s' =>
        if isSpace2 b c then 2
        else match s' with
          | [] => 0
          | d :: _ => if isSpace3 b c d then 3 else 0

/-- The words of a text, after the beginning of a word and before `skip` octets of white space. -/
def splitWhitespaceFrom (word : Bytes) (skip : ℕ) : Bytes → List Bytes
  | [] => endWord word
  | b :: s =>
    match skip with
    | n + 1 => splitWhitespaceFrom word n s
    | 0 =>
      match spaceLength (b :: s) with
      | 0 => splitWhitespaceFrom (word ++ [b]) 0 s
      | n + 1 => endWord word ++ splitWhitespaceFrom [] n s

/-- The parts of a text between white space that are not empty. -/
def splitWhitespace (s : Bytes) : List Bytes := splitWhitespaceFrom [] 0 s

example : splitWhitespace (ascii " a\tbc  " ++ [0xE2, 0x80, 0x83] ++ ascii "d") =
    [ascii "a", ascii "bc", ascii "d"] := by decide

/-- An ASCII octet outside white space. -/
def plainByte (b : UInt8) : Bool := decide (b < 128) && !isSpace1 b

def Plain (s : Bytes) : Prop := ∀ b ∈ s, plainByte b = true

instance (s : Bytes) : Decidable (Plain s) := inferInstanceAs (Decidable (∀ b ∈ s, _))

theorem Plain.append {s t : Bytes} (hs : Plain s) (ht : Plain t) : Plain (s ++ t) := by
  intro b hb
  rcases List.mem_append.mp hb with hb | hb
  · exact hs b hb
  · exact ht b hb

theorem Plain.take {s : Bytes} (hs : Plain s) (n : ℕ) : Plain (s.take n) := fun b hb =>
  hs b (List.mem_of_mem_take hb)

theorem spaceLength_plain {b : UInt8} (hb : plainByte b = true) (s : Bytes) :
    spaceLength (b :: s) = 0 := by
  have h (b : UInt8) : plainByte b = true → isSpace1 b = false ∧ b ≠ 0xC2 ∧ b ≠ 0xE1 ∧ b ≠ 0xE2 ∧
      b ≠ 0xE3 := by
    revert b; exact forall_byte (by decide +kernel)
  obtain ⟨h1, h2, h3, h4, h5⟩ := h b hb
  match s with
  | [] => simp [spaceLength, h1]
  | [c] => simp [spaceLength, h1, isSpace2, h2]
  | c :: d :: s => simp [spaceLength, h1, isSpace2, isSpace3, h2, h3, h4, h5]

theorem splitWhitespaceFrom_plain {s : Bytes} (hs : Plain s) (word rest : Bytes) :
    splitWhitespaceFrom word 0 (s ++ rest) = splitWhitespaceFrom (word ++ s) 0 rest := by
  induction s generalizing word with
  | nil => rw [List.nil_append, List.append_nil]
  | cons b s ih =>
    have hb := hs b List.mem_cons_self
    rw [List.cons_append, splitWhitespaceFrom.eq_def]
    simp only [spaceLength_plain hb]
    rw [ih fun c hc => hs c (List.mem_cons_of_mem b hc), List.append_assoc]
    rfl

/-- **A plain text before a tab is the first word.** -/
theorem splitWhitespace_tab {s : Bytes} (hs : Plain s) (hne : s ≠ []) (rest : Bytes) :
    splitWhitespace (s ++ 9 :: rest) = s :: splitWhitespace rest := by
  unfold splitWhitespace
  rw [splitWhitespaceFrom_plain hs, List.nil_append, splitWhitespaceFrom.eq_def]
  have htab : spaceLength (9 :: rest) = 1 := rfl
  simp only [htab]
  rw [endWord, if_neg hne]
  rfl

theorem splitWhitespace_plain {s : Bytes} (hs : Plain s) : splitWhitespace s = endWord s := by
  have h := splitWhitespaceFrom_plain hs [] []
  rwa [List.append_nil] at h

/-! ## Solid texts -/

/-- No white space starts anywhere in the text. -/
def Solid (w : Bytes) : Prop := ∀ t, t <:+ w → spaceLength t = 0

/-- What a text splits into: solid and not empty. -/
structure Word (w : Bytes) : Prop where
  ne_nil : w ≠ []
  solid : Solid w

theorem Solid.tail {b : UInt8} {w : Bytes} (h : Solid (b :: w)) : Solid w := fun t ht =>
  h t (ht.trans (List.suffix_cons b w))

theorem isSpace1_of_spaceLength {b : UInt8} {s : Bytes} (h : spaceLength (b :: s) = 0) :
    isSpace1 b = false := by
  simp only [spaceLength] at h
  split_ifs at h with h1
  exact Bool.eq_false_iff.mpr h1

theorem isSpace2_of_spaceLength {b c : UInt8} {s : Bytes} (h : spaceLength (b :: c :: s) = 0) :
    isSpace2 b c = false := by
  simp only [spaceLength] at h
  split_ifs at h with h1 h2
  exact Bool.eq_false_iff.mpr h2

theorem isSpace3_of_spaceLength {b c d : UInt8} {s : Bytes}
    (h : spaceLength (b :: c :: d :: s) = 0) : isSpace3 b c d = false := by
  simp only [spaceLength] at h
  split_ifs at h with h1 h2 h3
  exact Bool.eq_false_iff.mpr h3

theorem spaceLength_of_prefix {t r : Bytes} (h : spaceLength (t ++ r) = 0) : spaceLength t = 0 := by
  match t with
  | [] => rfl
  | [b] => simp [spaceLength, isSpace1_of_spaceLength h]
  | [b, c] => simp [spaceLength, isSpace1_of_spaceLength h, isSpace2_of_spaceLength h]
  | b :: c :: d :: t => exact h

/-- An ASCII octet ends a beginning of white space. -/
theorem spaceLength_append {t : Bytes} (h : spaceLength t = 0) (hne : t ≠ []) {a : UInt8}
    (ha : a < 128) (r : Bytes) : spaceLength (t ++ a :: r) = 0 := by
  have hascii (a : UInt8) : a < 128 → a ≠ 0x85 ∧ a ≠ 0xA0 ∧ a ≠ 0x9A ∧ a ≠ 0x80 ∧ a ≠ 0x81 ∧
      a ≠ 0xA8 ∧ a ≠ 0xA9 ∧ a ≠ 0xAF ∧ a ≠ 0x9F ∧ ¬ 0x80 ≤ a := by
    revert a; exact forall_byte (by decide +kernel)
  obtain ⟨h1, h2, h3, h4, h5, h6, h7, h8, h9, h10⟩ := hascii a ha
  match t with
  | [] => exact absurd rfl hne
  | [b] =>
    have hb := isSpace1_of_spaceLength h
    cases r with
    | nil => simp [spaceLength, hb, isSpace2, h1, h2]
    | cons d r => simp [spaceLength, hb, isSpace2, isSpace3, h1, h2, h3, h4, h5]
  | [b, c] =>
    simp only [spaceLength] at h
    simp only [List.cons_append, List.nil_append, spaceLength]
    split_ifs at h ⊢ with h₁ h₂ h₃
    · simp [isSpace3, h4, h6, h7, h8, h9, h10] at h₃
    · rfl
  | b :: c :: d :: t => exact h

theorem Solid.not_space {w : Bytes} (h : Solid w) {b : UInt8} (hb : b ∈ w) : isSpace1 b = false := by
  obtain ⟨s, t, rfl⟩ := List.append_of_mem hb
  exact isSpace1_of_spaceLength (h (b :: t) (List.suffix_append s _))

theorem Solid.no_line_end {w : Bytes} (h : Solid w) : (10 : UInt8) ∉ w ∧ (13 : UInt8) ∉ w :=
  ⟨fun hb => absurd (h.not_space hb) (by decide), fun hb => absurd (h.not_space hb) (by decide)⟩

theorem splitWhitespaceFrom_solid {w : Bytes} (h : Solid w) (word : Bytes) {a : UInt8} (ha : a < 128)
    (rest : Bytes) :
    splitWhitespaceFrom word 0 (w ++ a :: rest) = splitWhitespaceFrom (word ++ w) 0 (a :: rest) := by
  induction w generalizing word with
  | nil => rw [List.nil_append, List.append_nil]
  | cons b w ih =>
    have hb : spaceLength (b :: (w ++ a :: rest)) = 0 :=
      spaceLength_append (h _ List.suffix_rfl) (List.cons_ne_nil b w) ha rest
    rw [List.cons_append, splitWhitespaceFrom.eq_def]
    simp only [hb]
    rw [ih h.tail, List.append_assoc]
    rfl

theorem splitWhitespaceFrom_solid_end {w : Bytes} (h : Solid w) (word : Bytes) :
    splitWhitespaceFrom word 0 w = endWord (word ++ w) := by
  induction w generalizing word with
  | nil => rw [List.append_nil]; rfl
  | cons b w ih =>
    rw [splitWhitespaceFrom.eq_def]
    simp only [h _ List.suffix_rfl]
    rw [ih h.tail, List.append_assoc]
    rfl

/-- **Two words with a space between them split into the two.** -/
theorem splitWhitespace_pair {w v : Bytes} (hw : Word w) (hv : Word v) :
    splitWhitespace (w ++ 32 :: v) = [w, v] := by
  have hspace : spaceLength (32 :: v) = 1 := rfl
  unfold splitWhitespace
  rw [splitWhitespaceFrom_solid hw.solid [] (by decide), splitWhitespaceFrom.eq_def]
  simp only [hspace]
  rw [splitWhitespaceFrom_solid_end hv.solid, List.nil_append, List.nil_append, endWord, endWord,
    if_neg hw.ne_nil, if_neg hv.ne_nil]
  rfl

/-- What has been read of a word stays solid: the induction carries that no white space starts in it,
whatever follows. -/
theorem word_of_mem_splitWhitespaceFrom {word : Bytes} {skip : ℕ} {s : Bytes}
    (hskip : skip = 0 ∨ word = []) (hword : ∀ t, t <:+ word → t ≠ [] → spaceLength (t ++ s) = 0)
    {w : Bytes} (hw : w ∈ splitWhitespaceFrom word skip s) : Word w := by
  have hend {word s : Bytes} (hword : ∀ t, t <:+ word → t ≠ [] → spaceLength (t ++ s) = 0)
      (hw : w ∈ endWord word) : Word w := by
    unfold endWord at hw
    split at hw
    · exact absurd hw List.not_mem_nil
    · rename_i hne
      obtain rfl := List.mem_singleton.mp hw
      refine ⟨hne, fun t ht => ?_⟩
      by_cases hnil : t = []
      · rw [hnil]
        rfl
      · exact spaceLength_of_prefix (hword t ht hnil)
  induction s generalizing word skip with
  | nil => exact hend hword hw
  | cons b s ih =>
    rw [splitWhitespaceFrom.eq_def] at hw
    match skip with
    | n + 1 =>
      obtain rfl : word = [] := hskip.resolve_left (by simp)
      exact ih (.inr rfl) (fun _ ht hne => absurd (List.suffix_nil.mp ht) hne) hw
    | 0 =>
      simp only at hw
      split at hw
      · rename_i hzero
        refine ih (.inl rfl) (fun t ht hne => ?_) hw
        rcases List.suffix_concat_iff.mp ht with rfl | ⟨t, rfl, htw⟩
        · exact absurd rfl hne
        · rw [List.append_assoc]
          by_cases hnil : t = []
          · rw [hnil]
            exact hzero
          · exact hword t htw hnil
      · rcases List.mem_append.mp hw with hw | hw
        · exact hend hword hw
        · exact ih (.inr rfl) (fun _ ht hne => absurd (List.suffix_nil.mp ht) hne) hw

/-- **A text splits into words.** -/
theorem word_of_mem_splitWhitespace {s w : Bytes} (hw : w ∈ splitWhitespace s) : Word w :=
  word_of_mem_splitWhitespaceFrom (.inl rfl) (fun _ ht hne => absurd (List.suffix_nil.mp ht) hne) hw

theorem splitWhitespaceFrom_head {word : Bytes} (hne : word ≠ []) (s : Bytes) :
    ∃ w rest, splitWhitespaceFrom word 0 s = (word ++ w) :: rest := by
  induction s generalizing word with
  | nil => exact ⟨[], [], by rw [List.append_nil]; exact if_neg hne⟩
  | cons b s ih =>
    rw [splitWhitespaceFrom.eq_def]
    simp only
    split
    · obtain ⟨w, rest, h⟩ := ih (by simp : word ++ [b] ≠ [])
      exact ⟨b :: w, rest, by rw [h, List.append_assoc]; rfl⟩
    · exact ⟨[], _, by rw [List.append_nil, endWord, if_neg hne]; rfl⟩

/-- The first word of a text without leading white space starts where the text does. -/
theorem splitWhitespace_head {b : UInt8} {s : Bytes} (h : spaceLength (b :: s) = 0) :
    ∃ w rest, splitWhitespace (b :: s) = (b :: w) :: rest := by
  rw [splitWhitespace, splitWhitespaceFrom.eq_def]
  simp only [h]
  exact splitWhitespaceFrom_head (List.cons_ne_nil b []) s

/-- A plain text is a word of its own. -/
theorem Plain.word {w : Bytes} (h : Plain w) (hne : w ≠ []) : Word w := by
  refine ⟨hne, fun t ht => ?_⟩
  match t with
  | [] => rfl
  | b :: t => exact spaceLength_plain (h b (ht.subset List.mem_cons_self)) t

/-! ## Trimming -/

theorem spaceLength_trimStart (s : Bytes) : spaceLength (trimStart s) = 0 := by
  fun_induction trimStart s with
  | case1 => rfl
  | case2 b s h ih => exact ih
  | case3 b h => simp [spaceLength, h]
  | case4 b h c s hc ih => exact ih
  | case5 b h c hc => simp [spaceLength, h, hc]
  | case6 b h c hc d s hd ih => exact ih
  | case7 b h c hc d s hd => simp [spaceLength, h, hc, hd]

theorem trimStart_of_spaceLength {s : Bytes} (h : spaceLength s = 0) : trimStart s = s := by
  fun_cases trimStart s with
  | case1 => rfl
  | case2 b s hb => simp [spaceLength, hb] at h
  | case3 b hb => rfl
  | case4 b hb c s hc => simp [spaceLength, hb, hc] at h
  | case5 b hb c hc => rfl
  | case6 b hb c hc d s hd => simp [spaceLength, hb, hc, hd] at h
  | case7 b hb c hc d s hd => rfl

theorem trimEndRev_suffix (s : Bytes) : trimEndRev s <:+ s := by
  fun_induction trimEndRev s with
  | case1 => exact List.suffix_rfl
  | case2 b s h ih => exact ih.trans (List.suffix_cons b s)
  | case3 b h => exact List.suffix_rfl
  | case4 b h c s hc ih => exact ih.trans (List.suffix_append [b, c] s)
  | case5 b h c hc => exact List.suffix_rfl
  | case6 b h c hc d s hd ih => exact ih.trans (List.suffix_append [b, c, d] s)
  | case7 b h c hc d s hd => exact List.suffix_rfl

theorem spaceLength_trim (s : Bytes) : spaceLength (trim s) = 0 := by
  have hprefix : trim s <+: trimStart s := by
    have h := List.reverse_prefix.mpr (trimEndRev_suffix (trimStart s).reverse)
    rwa [List.reverse_reverse] at h
  obtain ⟨r, hr⟩ := hprefix
  exact spaceLength_of_prefix (r := r) (by rw [hr]; exact spaceLength_trimStart s)

theorem trimEndRev_trimEndRev (s : Bytes) : trimEndRev (trimEndRev s) = trimEndRev s := by
  fun_induction trimEndRev s <;> simp_all [trimEndRev]

/-- A trimmed text stays as it is. -/
theorem trim_trim (s : Bytes) : trim (trim s) = trim s := by
  have hstart := trimStart_of_spaceLength (spaceLength_trim s)
  rw [trim, hstart]
  nth_rewrite 1 [trim]
  rw [List.reverse_reverse, trimEndRev_trimEndRev]
  rfl

/-- White space does not end where a word ends that a space precedes. -/
theorem trimEndRev_word {v : Bytes} (hv : Word v) (x : Bytes) :
    trimEndRev (v.reverse ++ 32 :: x) = v.reverse ++ 32 :: x := by
  have hsolid {t : Bytes} (ht : t.reverse <+: v.reverse) : spaceLength t = 0 :=
    hv.solid t (List.reverse_prefix.mp ht)
  have h2 (b : UInt8) : isSpace2 32 b = false := by simp [isSpace2]
  have h3 (b c : UInt8) : isSpace3 32 b c = false := by simp [isSpace3]
  have h3' (b c : UInt8) : isSpace3 b 32 c = false := by simp [isSpace3]
  rcases hrev : v.reverse with _ | ⟨b, _ | ⟨c, _ | ⟨d, r⟩⟩⟩
  · exact absurd (List.reverse_eq_nil_iff.mp hrev) hv.ne_nil
  · have hb := hsolid (t := [b]) (by rw [hrev]; exact List.prefix_rfl)
    have hb1 := isSpace1_of_spaceLength hb
    cases x with
    | nil => simp [trimEndRev, hb1, h2]
    | cons d x => simp [trimEndRev, hb1, h2, h3']
  · have hb := hsolid (t := [b]) (by rw [hrev]; exact List.prefix_append [b] [c])
    have hc := hsolid (t := [c, b]) (by rw [hrev]; exact List.prefix_rfl)
    simp [trimEndRev, isSpace1_of_spaceLength hb, isSpace2_of_spaceLength hc, h3]
  · have hb := hsolid (t := [b]) (by rw [hrev]; exact List.prefix_append [b] (c :: d :: r))
    have hc := hsolid (t := [c, b]) (by rw [hrev]; exact List.prefix_append [b, c] (d :: r))
    have hd := hsolid (t := [d, c, b]) (by rw [hrev]; exact List.prefix_append [b, c, d] r)
    simp [trimEndRev, isSpace1_of_spaceLength hb, isSpace2_of_spaceLength hc, isSpace3_of_spaceLength hd]

/-- **Two words with a space between them are trimmed already.** -/
theorem trim_pair {w v : Bytes} (hw : Word w) (hv : Word v) : trim (w ++ 32 :: v) = w ++ 32 :: v := by
  have hstart : spaceLength (w ++ 32 :: v) = 0 :=
    spaceLength_append (hw.solid w List.suffix_rfl) hw.ne_nil (by decide) v
  have hrev : (w ++ 32 :: v).reverse = v.reverse ++ 32 :: w.reverse := by simp
  rw [trim, trimStart_of_spaceLength hstart, hrev, trimEndRev_word hv, ← hrev, List.reverse_reverse]

/-! ## Lines -/

/-- **A text whose first part ends a line has the lines of its parts.** -/
theorem lines_append (head rest : Bytes) :
    lines (head ++ 10 :: rest) = lines (head ++ [10]) ++ lines rest := by
  have hne (s : Bytes) : s.splitOn 10 ≠ [] := List.splitOn_ne_nil 10 s
  have hparts (s : Bytes) : (head ++ 10 :: s).splitOn 10 = head.splitOn 10 ++ s.splitOn 10 :=
    List.splitOn_append_cons_self _ _
  have hlast : (head.splitOn 10 ++ rest.splitOn 10).getLast? = (rest.splitOn 10).getLast? :=
    List.getLast?_append_of_ne_nil _ (hne rest)
  unfold lines
  simp only [hparts, hlast, List.dropLast_append_of_ne_nil (hne rest), List.map_append,
    List.append_assoc]
  simp

theorem lines_of_not_mem {s : Bytes} (h : (10 : UInt8) ∉ s) : lines s = endWord s := by
  unfold lines
  simp only [List.splitOn_eq_singleton h]
  unfold endWord
  by_cases hs : s = []
  · simp [hs]
  · simp [hs]

/-- A line that ends with a line feed. -/
theorem lines_line {s : Bytes} (hlf : (10 : UInt8) ∉ s) (hcr : (13 : UInt8) ∉ s) :
    lines (s ++ [10]) = [s] := by
  have hparts : (s ++ [10]).splitOn 10 = [s, []] := by
    rw [List.splitOn_append_cons_self, List.splitOn_eq_singleton hlf]
    rfl
  have hstrip : stripSuffix [13] s = none := by
    cases h : stripSuffix [13] s with
    | none => rfl
    | some r => exact absurd (by rw [stripSuffix_eq_some.mp h]; simp) hcr
  unfold lines
  simp [hparts, hstrip]

theorem Plain.no_line_end {s : Bytes} (h : Plain s) : (10 : UInt8) ∉ s ∧ (13 : UInt8) ∉ s :=
  ⟨fun hb => absurd (h 10 hb) (by decide), fun hb => absurd (h 13 hb) (by decide)⟩

theorem no_line_end_tab {w y : Bytes} (hw : (10 : UInt8) ∉ w ∧ (13 : UInt8) ∉ w)
    (hy : (10 : UInt8) ∉ y ∧ (13 : UInt8) ∉ y) :
    (10 : UInt8) ∉ w ++ 9 :: y ∧ (13 : UInt8) ∉ w ++ 9 :: y := by
  simp only [List.mem_append, List.mem_cons, not_or]
  exact ⟨⟨hw.1, by decide, hy.1⟩, ⟨hw.2, by decide, hy.2⟩⟩

end Vhrn
