import Vhrn.Foundations.Ends
import Vhrn.Proxy.Server.Http1.Head

/-!
# Ends of lines and heads

The two ends the readers search for, the end of a line and the end of a head, and the checks they make
on what is buffered of either. Both are searches in the sense of `Finds`, and no octet that follows
mends a bad line ending.
-/

namespace Vhrn.Proxy

/-! ## Searches -/

/-- The length of the first line with its CRLF. -/
def lineEnd (bytes : Bytes) : Option ℕ := (findCrlf bytes).map (· + 2)

/-- The length of a head whose first line has the given length. -/
def findHeadEnd (lineLength : ℕ) (bytes : Bytes) : Option ℕ :=
  (findSectionEnd (bytes.drop lineLength)).map (lineLength + ·)

theorem findCrlf_eq (bytes : Bytes) : findCrlf bytes = findSeq crlf bytes := by
  induction bytes using findCrlf.induct with
  | case1 rest => rfl
  | case2 b rest hnot ih =>
    have hpre : ¬ crlf <+: b :: rest := by
      rintro ⟨t, ht⟩
      obtain ⟨rfl, rfl⟩ := List.cons.inj ht
      exact hnot t rfl rfl
    rw [findSeq, if_neg hpre, ← ih, findCrlf]
    exact hnot
  | case3 => rfl

theorem finds_lineEnd : Finds lineEnd := by
  have h : lineEnd = fun bytes => (findSeq crlf bytes).map (· + crlf.length) := by
    funext bytes
    rw [lineEnd, findCrlf_eq]
    rfl
  rw [h]
  exact finds_findSeq (by decide)

theorem splitOnceSeq_length (p : Bytes) (s : Bytes) :
    (splitOnceSeq p s).map (fun parts => parts.1.length) = findSeq p s := by
  induction s with
  | nil =>
    rw [splitOnceSeq, findSeq]
    cases p <;> rfl
  | cons b s ih =>
    rw [splitOnceSeq, findSeq]
    cases hs : stripPrefix p (b :: s) with
    | some r =>
      have hpre : p <+: b :: s := ⟨r, (stripPrefix_eq_some.mp hs).symm⟩
      rw [if_pos hpre]
      rfl
    | none =>
      have hpre : ¬ p <+: b :: s := by
        rintro ⟨r, hr⟩
        rw [stripPrefix_eq_some.mpr hr.symm] at hs
        cases hs
      rw [if_neg hpre, ← ih, Option.map_map, Option.map_map]
      rfl

/-- A blank line at the start, or the first one after a line. -/
theorem findSectionEnd_eq (bytes : Bytes) : findSectionEnd bytes =
    if crlf <+: bytes then some 2 else (findSeq (crlf ++ crlf) bytes).map (· + 4) := by
  unfold findSectionEnd
  rw [← splitOnceSeq_length, Option.map_map]
  by_cases h : crlf <+: bytes
  · rw [if_pos h, if_pos (List.isPrefixOf_iff_prefix.mpr h)]
  · rw [if_neg h, if_neg fun hb => h (List.isPrefixOf_iff_prefix.mp hb)]
    rfl

theorem finds_findSectionEnd : Finds findSectionEnd := by
  have hf : Finds fun bytes : Bytes => (findSeq (crlf ++ crlf) bytes).map (· + 4) :=
    finds_findSeq (by decide)
  refine ⟨fun {p n} h q => ?_, fun {p n} h => ?_, fun {p q n} hp h => ?_⟩
  · rw [findSectionEnd_eq] at h ⊢
    split at h
    · rename_i hpre
      rw [if_pos (hpre.trans (List.prefix_append p q))]
      exact h
    · rename_i hpre
      have hle := hf.le h
      obtain ⟨m, -, rfl⟩ := Option.map_eq_some_iff.mp h
      have hq : ¬ crlf <+: p ++ q := fun hq =>
        hpre (prefix_of_prefix_append hq ((by decide : crlf.length ≤ 4).trans (by omega)))
      rw [if_neg hq]
      exact hf.append h q
  · rw [findSectionEnd_eq] at h
    split at h
    · rename_i hpre
      obtain rfl := Option.some.inj h
      exact hpre.length_le
    · exact hf.le h
  · rw [findSectionEnd_eq] at hp h
    split at hp
    · cases hp
    · rename_i hpre
      split at h
      · rename_i hq
        obtain rfl := Option.some.inj h
        by_contra hle
        exact hpre (prefix_of_prefix_append hq (Nat.not_lt.mp hle))
      · exact hf.later hp h

theorem finds_findHeadEnd (lineLength : ℕ) : Finds (findHeadEnd lineLength) :=
  finds_findSectionEnd.drop (by decide) lineLength

/-! ## Checks -/

/-- What is seen of a line, without what is seen of its end. -/
def lineText (seen : Bytes) : Bytes :=
  match stripSuffix crlf seen with
  | some text => text
  | none => (stripSuffix [13] seen).getD seen

def requestLineOctet (byte : UInt8) : Bool := 32 ≤ byte && byte < 127

/-- The checks on what is seen of a request line. -/
def validRequestLine (seen : Bytes) : Bool :=
  validLineEndingsFrom none seen && (lineText seen).all requestLineOctet

theorem validLineEndingsFrom_append {previous : Option UInt8} {p q : Bytes}
    (h : validLineEndingsFrom previous (p ++ q) = true) : validLineEndingsFrom previous p = true := by
  induction p generalizing previous with
  | nil => rfl
  | cons b p ih =>
    rw [List.cons_append, validLineEndingsFrom, Bool.and_eq_true, Bool.and_eq_true] at h
    obtain ⟨⟨hlf, hcr⟩, hrest⟩ := h
    rw [validLineEndingsFrom, ih hrest, hlf, Bool.true_and, Bool.and_true]
    cases p with
    | nil => simp
    | cons c p => exact hcr

theorem closed_validLineEndings : Closed (validLineEndingsFrom none) :=
  fun _ _ => validLineEndingsFrom_append

theorem lineText_crlf (text : Bytes) : lineText (text ++ crlf) = text := by
  rw [lineText, stripSuffix_append]

theorem lineText_cr (text : Bytes) : lineText (text ++ [13]) = text := by
  have hnone : stripSuffix crlf (text ++ [13]) = none := by
    cases h : stripSuffix crlf (text ++ [13]) with
    | none => rfl
    | some r =>
      have hlast := congrArg List.getLast? (stripSuffix_eq_some.mp h)
      simp [crlf] at hlast
  rw [lineText, hnone, stripSuffix_append]
  rfl

theorem lineText_other {seen : Bytes} (h : stripSuffix crlf seen = none)
    (h' : stripSuffix [13] seen = none) : lineText seen = seen := by
  rw [lineText, h, h']
  rfl

/-- The three forms of what is seen of a line. -/
theorem lineText_cases (seen : Bytes) : seen = lineText seen ++ crlf ∨
    seen = lineText seen ++ [13] ∨ lineText seen = seen := by
  cases h : stripSuffix crlf seen with
  | some text =>
    obtain rfl := stripSuffix_eq_some.mp h
    rw [lineText_crlf]
    exact .inl rfl
  | none =>
    cases h' : stripSuffix [13] seen with
    | some text =>
      obtain rfl := stripSuffix_eq_some.mp h'
      rw [lineText_cr]
      exact .inr (.inl rfl)
    | none => exact .inr (.inr (lineText_other h h'))

theorem lineText_of_isPrefix (seen : Bytes) : lineText seen <+: seen := by
  rcases lineText_cases seen with h | h | h
  · exact ⟨crlf, h.symm⟩
  · exact ⟨[13], h.symm⟩
  · rw [h]

/-- The text of a line only grows. -/
theorem lineText_append (p q : Bytes) : lineText p <+: lineText (p ++ q) := by
  have hle := (lineText_of_isPrefix p).length_le
  have hpq : lineText p <+: p ++ q := (lineText_of_isPrefix p).trans (List.prefix_append p q)
  suffices hlen : (lineText p).length ≤ (lineText (p ++ q)).length from
    List.prefix_of_prefix_length_le hpq (lineText_of_isPrefix (p ++ q)) hlen
  rcases lineText_cases (p ++ q) with h | h | h
  · -- the line end has been seen in full: its last octets are those of `q`, or end `p`
    match q with
    | [] => rw [List.append_nil]
    | [c] =>
      have hsplit : p ++ [c] = (lineText (p ++ [c]) ++ [13]) ++ [10] := by
        rw [List.append_assoc]
        exact h
      have hp : p = lineText (p ++ [c]) ++ [13] := (List.append_inj_left' hsplit rfl)
      have htext := lineText_cr (lineText (p ++ [c]))
      rw [← hp] at htext
      rw [htext]
    | c :: d :: q =>
      have hlen := congrArg List.length h
      simp only [List.length_append, List.length_cons, crlf, List.length_nil] at hlen
      omega
  · match q with
    | [] => rw [List.append_nil]
    | c :: q =>
      have hlen := congrArg List.length h
      simp only [List.length_append, List.length_cons, List.length_nil] at hlen
      omega
  · rw [h, List.length_append]
    omega

theorem closed_validRequestLine : Closed validRequestLine := by
  intro p q h
  rw [validRequestLine, Bool.and_eq_true] at h ⊢
  refine ⟨validLineEndingsFrom_append h.1, List.all_eq_true.mpr fun b hb => ?_⟩
  exact List.all_eq_true.mp h.2 b ((lineText_append p q).subset hb)

end Vhrn.Proxy
