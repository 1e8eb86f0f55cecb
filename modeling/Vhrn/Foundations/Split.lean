import Vhrn.Foundations.Bytes

/-!
# Splitting at an octet

Splitting at every occurrence of an element (`List.splitOn`), at the first (`splitOnce`) and at the
last (`rsplitOnce`). The parts of a text that are separated by an element are what its labels, list
members or lines are, and `splitOn_suffix_iff` is the fact that label-wise suffixes rest on: the
parts of `p` end the parts of `h` exactly when `h` is `p`, or ends in `p` right after a separator.
-/

namespace Vhrn

section

variable {α β : Type*} [DecidableEq α] [DecidableEq β] {a : α}

/-- The parts of a text one element longer: the old parts, an empty one when the element separates,
an extended one when it does not. -/
theorem mem_splitOn_cons {x : α} {s l : List α} (hl : l ∈ (x :: s).splitOn a) :
    l = [] ∨ l ∈ s.splitOn a ∨ ∃ r ∈ s.splitOn a, l = x :: r ∧ x ≠ a := by
  rw [List.splitOn_cons_eq_if_modifyHead] at hl
  split at hl
  · rcases List.mem_cons.mp hl with rfl | hl
    · exact .inl rfl
    · exact .inr (.inl hl)
  · rename_i hx
    obtain ⟨r, rs, hr⟩ := List.exists_cons_of_ne_nil (List.splitOn_ne_nil a s)
    rw [hr, List.modifyHead_cons, List.mem_cons] at hl
    rcases hl with rfl | hl
    · exact .inr (.inr ⟨r, by simp [hr], rfl, by simpa using hx⟩)
    · exact .inr (.inl (by simp [hr, hl]))

theorem not_mem_of_mem_splitOn {s l : List α} (hl : l ∈ s.splitOn a) : a ∉ l := by
  induction s generalizing l with
  | nil =>
    obtain rfl : l = [] := by simpa using hl
    exact List.not_mem_nil
  | cons x s ih =>
    rcases mem_splitOn_cons hl with rfl | hl | ⟨r, hr, rfl, hx⟩
    · exact List.not_mem_nil
    · exact ih hl
    · rw [List.mem_cons, not_or]
      exact ⟨hx.symm, ih hr⟩

theorem mem_of_mem_splitOn {s l : List α} (hl : l ∈ s.splitOn a) {y : α} (hy : y ∈ l) : y ∈ s := by
  induction s generalizing l with
  | nil =>
    obtain rfl : l = [] := by simpa using hl
    exact hy
  | cons x s ih =>
    rcases mem_splitOn_cons hl with rfl | hl | ⟨r, hr, rfl, hx⟩
    · exact absurd hy List.not_mem_nil
    · exact List.mem_cons_of_mem x (ih hl hy)
    · rcases List.mem_cons.mp hy with rfl | hy
      · exact List.mem_cons_self
      · exact List.mem_cons_of_mem x (ih hr hy)

theorem length_le_of_mem_splitOn {s l : List α} (hl : l ∈ s.splitOn a) : l.length ≤ s.length := by
  induction s generalizing l with
  | nil =>
    obtain rfl : l = [] := by simpa using hl
    exact le_rfl
  | cons x s ih =>
    rcases mem_splitOn_cons hl with rfl | hl | ⟨r, hr, rfl, hx⟩
    · exact Nat.zero_le _
    · exact (ih hl).trans (Nat.le_succ _)
    · exact Nat.succ_le_succ (ih hr)

omit [DecidableEq α] in
theorem mem_intercalate {x : α} {ls : List (List α)} (h : x ∈ [a].intercalate ls) :
    x = a ∨ ∃ l ∈ ls, x ∈ l := by
  induction ls with
  | nil => exact absurd h List.not_mem_nil
  | cons l ls ih =>
    cases ls with
    | nil => exact .inr ⟨l, List.mem_cons_self, by simpa using h⟩
    | cons next rest =>
      rw [List.intercalate_cons_cons, List.mem_append, List.mem_append] at h
      rcases h with (h | h) | h
      · exact .inr ⟨l, List.mem_cons_self, h⟩
      · exact .inl (List.mem_singleton.mp h)
      · rcases ih h with rfl | ⟨l', hl', hx⟩
        · exact .inl rfl
        · exact .inr ⟨l', List.mem_cons_of_mem l hl', hx⟩

theorem splitOn_map {b : β} (f : α → β) {s : List α} (hf : ∀ x ∈ s, f x = b ↔ x = a) :
    (s.map f).splitOn b = (s.splitOn a).map (List.map f) := by
  induction s with
  | nil => rfl
  | cons x s ih =>
    have hx : (f x == b) = (x == a) := by
      rw [Bool.eq_iff_iff, beq_iff_eq, beq_iff_eq]
      exact hf x (by simp)
    rw [List.map_cons, List.splitOn_cons_eq_if_modifyHead, List.splitOn_cons_eq_if_modifyHead, hx,
      ih fun y hy => hf y (by simp [hy])]
    split
    · rfl
    · obtain ⟨r, rs, hr⟩ := List.exists_cons_of_ne_nil (List.splitOn_ne_nil a s)
      simp [hr]

/-- **Label-wise suffixes.** -/
theorem splitOn_suffix_iff {p h : List α} :
    p.splitOn a <:+ h.splitOn a ↔ h = p ∨ ∃ q, h = q ++ a :: p := by
  constructor
  · rintro ⟨front, hfront⟩
    by_cases hn : front = []
    · subst hn
      have heq := congrArg ([a].intercalate ·) hfront
      exact .inl (by simpa using heq.symm)
    · have hq : ([a].intercalate front).splitOn a = front :=
        List.splitOn_intercalate a
          (fun l hl => not_mem_of_mem_splitOn (s := h) (by rw [← hfront]; simp [hl])) hn
      refine .inr ⟨[a].intercalate front, ?_⟩
      have heq : h.splitOn a = ([a].intercalate front ++ a :: p).splitOn a := by
        rw [List.splitOn_append_cons_self, hq, hfront]
      calc h = [a].intercalate (h.splitOn a) := (List.intercalate_splitOn a).symm
        _ = [a].intercalate ([a].intercalate front ++ a :: p |>.splitOn a) := by rw [heq]
        _ = [a].intercalate front ++ a :: p := List.intercalate_splitOn a
  · rintro (rfl | ⟨q, rfl⟩)
    · exact List.suffix_rfl
    · rw [List.splitOn_append_cons_self]
      exact List.suffix_append _ _

end

/-! ## Sections -/

section

variable {α : Type*} {a : α}

/-- The parts that a text of joined entries has: an empty one when there are no entries. -/
def parts (entries : List (List α)) : List (List α) := if entries = [] then [[]] else entries

theorem parts_ne_nil (entries : List (List α)) : parts entries ≠ [] := by
  unfold parts
  split
  · exact List.cons_ne_nil _ _
  · assumption

theorem intercalate_parts (entries : List (List α)) :
    [a].intercalate (parts entries) = [a].intercalate entries := by
  unfold parts
  split
  · rename_i h
    rw [h]
    rfl
  · rfl

theorem mem_parts {entries : List (List α)} {e : List α} (h : e ∈ parts entries) :
    e = [] ∨ e ∈ entries := by
  unfold parts at h
  split at h
  · exact .inl (List.mem_singleton.mp h)
  · exact .inr h

/-- Entries with more than one part are their parts. -/
theorem parts_eq_of_length {entries : List (List α)} (h : 1 < (parts entries).length) :
    entries ≠ [] ∧ parts entries = entries := by
  unfold parts at h ⊢
  split at h
  · simp at h
  · rename_i hne
    exact ⟨hne, if_neg hne⟩

/-- Entries that are not empty are told from their parts. -/
theorem parts_injective {entries entries' : List (List α)} (hne : [] ∉ entries)
    (hne' : [] ∉ entries') (h : parts entries = parts entries') : entries = entries' := by
  unfold parts at h
  split at h
  · rename_i hnil
    split at h
    · rename_i hnil'
      rw [hnil, hnil']
    · exact absurd (h ▸ List.mem_singleton_self _) hne'
  · split at h
    · exact absurd (h ▸ List.mem_singleton_self _) hne
    · exact h

theorem intercalate_append {ls ls' : List (List α)} (h : ls ≠ []) (h' : ls' ≠ []) :
    [a].intercalate (ls ++ ls') = [a].intercalate ls ++ a :: [a].intercalate ls' := by
  induction ls with
  | nil => exact absurd rfl h
  | cons l ls ih =>
    cases ls with
    | nil =>
      rw [List.singleton_append, List.intercalate_cons_of_ne_nil h', List.intercalate_singleton,
        List.append_assoc]
      rfl
    | cons l' ls =>
      rw [List.cons_append, List.intercalate_cons_of_ne_nil (by simp), ih (List.cons_ne_nil _ _),
        List.intercalate_cons_of_ne_nil (List.cons_ne_nil _ _)]
      simp only [List.append_assoc]

/-- Two sections with a mark between them: the same sections, or a mark in a section of either. -/
theorem append_mark_append_iff {m : α} {l l' r r' : List α} :
    l ++ m :: r = l' ++ m :: r' ↔ (l = l' ∧ r = r') ∨
      (∃ x, l' = l ++ m :: x ∧ r = x ++ m :: r') ∨ ∃ x, l = l' ++ m :: x ∧ r' = x ++ m :: r := by
  rw [List.append_eq_append_iff]
  constructor
  · rintro (⟨x, rfl, hx⟩ | ⟨x, rfl, hx⟩)
    · cases x with
      | nil => exact .inl ⟨(List.append_nil l).symm, (List.cons.inj hx).2⟩
      | cons y x =>
        obtain ⟨rfl, rfl⟩ := List.cons.inj hx
        exact .inr (.inl ⟨x, rfl, rfl⟩)
    · cases x with
      | nil => exact .inl ⟨List.append_nil l', (List.cons.inj hx).2.symm⟩
      | cons y x =>
        obtain ⟨rfl, rfl⟩ := List.cons.inj hx
        exact .inr (.inr ⟨x, rfl, rfl⟩)
  · rintro (⟨rfl, rfl⟩ | ⟨x, rfl, rfl⟩ | ⟨x, rfl, rfl⟩)
    · exact .inl ⟨[], (List.append_nil l).symm, rfl⟩
    · exact .inl ⟨m :: x, rfl, rfl⟩
    · exact .inr ⟨m :: x, rfl, rfl⟩

end

/-- The text before and after the first occurrence of an octet. -/
def splitOnce (a : UInt8) : Bytes → Option (Bytes × Bytes)
  | [] => none
  | b :: s => if b = a then some ([], s) else (splitOnce a s).map fun (l, r) => (b :: l, r)

/-- The text before and after the last occurrence of an octet. -/
def rsplitOnce (a : UInt8) (s : Bytes) : Option (Bytes × Bytes) :=
  (splitOnce a s.reverse).map fun (l, r) => (r.reverse, l.reverse)

/-- The text before and after the first occurrence of a sequence. -/
def splitOnceSeq (p : Bytes) : Bytes → Option (Bytes × Bytes)
  | [] => if p.isEmpty then some ([], []) else none
  | b :: s =>
    match stripPrefix p (b :: s) with
    | some r => some ([], r)
    | none => (splitOnceSeq p s).map fun (l, r) => (b :: l, r)

theorem splitOnce_eq_some {a : UInt8} {s l r : Bytes} :
    splitOnce a s = some (l, r) ↔ s = l ++ a :: r ∧ a ∉ l := by
  induction s generalizing l with
  | nil => simp [splitOnce]
  | cons b s ih =>
    unfold splitOnce
    by_cases hb : b = a
    · subst hb
      rw [if_pos rfl, Option.some.injEq, Prod.mk.injEq]
      constructor
      · rintro ⟨rfl, rfl⟩
        simp
      · rintro ⟨hs, hl⟩
        cases l with
        | nil => simpa using hs
        | cons c l =>
          rw [List.cons_append, List.cons.injEq] at hs
          exact absurd (by simp [hs.1]) hl
    · rw [if_neg hb]
      constructor
      · intro h
        obtain ⟨⟨l', r'⟩, hs, heq⟩ := Option.map_eq_some_iff.mp h
        obtain ⟨rfl, rfl⟩ := Prod.mk.inj heq
        obtain ⟨rfl, hl'⟩ := ih.mp hs
        refine ⟨rfl, ?_⟩
        simp only [List.mem_cons, not_or]
        exact ⟨fun h => hb h.symm, hl'⟩
      · rintro ⟨hs, hl⟩
        cases l with
        | nil =>
          rw [List.nil_append, List.cons.injEq] at hs
          exact absurd hs.1 hb
        | cons c l =>
          rw [List.cons_append, List.cons.injEq] at hs
          obtain ⟨rfl, rfl⟩ := hs
          rw [ih.mpr ⟨rfl, fun h => hl (by simp [h])⟩]
          rfl

theorem splitOnce_eq_none {a : UInt8} {s : Bytes} : splitOnce a s = none ↔ a ∉ s := by
  induction s with
  | nil => simp [splitOnce]
  | cons b s ih =>
    unfold splitOnce
    by_cases hb : b = a
    · simp [hb]
    · rw [if_neg hb, Option.map_eq_none_iff, ih, List.mem_cons, not_or]
      exact ⟨fun h => ⟨fun h' => hb h'.symm, h⟩, fun h => h.2⟩

theorem rsplitOnce_eq_some {a : UInt8} {s l r : Bytes} :
    rsplitOnce a s = some (l, r) ↔ s = l ++ a :: r ∧ a ∉ r := by
  unfold rsplitOnce
  constructor
  · intro h
    obtain ⟨⟨l', r'⟩, hs, heq⟩ := Option.map_eq_some_iff.mp h
    obtain ⟨rfl, rfl⟩ := Prod.mk.inj heq
    obtain ⟨hrev, hl'⟩ := splitOnce_eq_some.mp hs
    refine ⟨?_, by simpa using hl'⟩
    rw [← List.reverse_reverse s, hrev]
    simp
  · rintro ⟨rfl, hr⟩
    rw [splitOnce_eq_some (l := r.reverse) (r := l.reverse) |>.mpr ⟨by simp, by simpa using hr⟩]
    simp

theorem rsplitOnce_eq_none {a : UInt8} {s : Bytes} : rsplitOnce a s = none ↔ a ∉ s := by
  rw [rsplitOnce, Option.map_eq_none_iff, splitOnce_eq_none, List.mem_reverse]

/-- The first occurrence: the sequence does not start any earlier. -/
theorem splitOnceSeq_eq_some {p s l r : Bytes} (h : splitOnceSeq p s = some (l, r)) :
    s = l ++ p ++ r := by
  induction s generalizing l with
  | nil =>
    unfold splitOnceSeq at h
    split at h
    · rename_i hp
      obtain ⟨rfl, rfl⟩ := Prod.mk.inj (Option.some.inj h)
      simpa using hp
    · cases h
  | cons b s ih =>
    unfold splitOnceSeq at h
    split at h
    · rename_i r' hr
      obtain ⟨rfl, rfl⟩ := Prod.mk.inj (Option.some.inj h)
      rw [stripPrefix_eq_some.mp hr, List.nil_append]
    · obtain ⟨⟨l', r'⟩, hs, heq⟩ := Option.map_eq_some_iff.mp h
      obtain ⟨rfl, rfl⟩ := Prod.mk.inj heq
      rw [ih hs]
      simp

/-- The first occurrence stays the first when more follows. -/
theorem splitOnceSeq_append {p s l r : Bytes} (h : splitOnceSeq p s = some (l, r)) (more : Bytes) :
    splitOnceSeq p (s ++ more) = some (l, r ++ more) := by
  induction s generalizing l with
  | nil =>
    unfold splitOnceSeq at h
    split at h
    · rename_i hp
      obtain rfl := List.isEmpty_iff.mp hp
      obtain ⟨rfl, rfl⟩ := Prod.mk.inj (Option.some.inj h)
      cases more with
      | nil => rfl
      | cons b more =>
        have hstrip : stripPrefix [] (b :: more) = some (b :: more) := stripPrefix_append [] _
        simp only [List.nil_append, splitOnceSeq, hstrip]
    · cases h
  | cons b s ih =>
    have hwhole := splitOnceSeq_eq_some h
    unfold splitOnceSeq at h
    split at h
    · rename_i r' hr
      obtain ⟨rfl, rfl⟩ := Prod.mk.inj (Option.some.inj h)
      have hstrip : stripPrefix p (b :: (s ++ more)) = some (r' ++ more) := by
        rw [stripPrefix_eq_some, ← List.cons_append, stripPrefix_eq_some.mp hr, List.append_assoc]
      simp only [List.cons_append, splitOnceSeq, hstrip]
    · rename_i hnone
      obtain ⟨⟨l', r'⟩, hs, heq⟩ := Option.map_eq_some_iff.mp h
      obtain ⟨rfl, rfl⟩ := Prod.mk.inj heq
      have hno : stripPrefix p (b :: (s ++ more)) = none := by
        cases hstrip : stripPrefix p (b :: (s ++ more)) with
        | none => rfl
        | some r' =>
          have hstarts : p <+: b :: s ++ more := ⟨r', (stripPrefix_eq_some.mp hstrip).symm⟩
          have hlength : p.length ≤ (b :: s).length := by
            rw [hwhole, List.length_append, List.length_append]
            omega
          obtain ⟨r'', hr''⟩ :=
            List.prefix_of_prefix_length_le hstarts (List.prefix_append _ _) hlength
          rw [stripPrefix_eq_some.mpr hr''.symm] at hnone
          cases hnone
      simp only [List.cons_append, splitOnceSeq, hno, ih hs, Option.map_some]

/-- A sequence is found after a text without its first octet. -/
theorem splitOnceSeq_of_not_mem {b : UInt8} {p l r : Bytes} (h : b ∉ l) :
    splitOnceSeq (b :: p) (l ++ b :: p ++ r) = some (l, r) := by
  have hstrip (r : Bytes) : stripPrefix (b :: p) (b :: (p ++ r)) = some r := stripPrefix_append _ r
  induction l with
  | nil =>
    simp only [List.nil_append, List.cons_append, splitOnceSeq, hstrip]
  | cons c l ih =>
    rw [List.mem_cons, not_or] at h
    have hno : stripPrefix (b :: p) (c :: (l ++ b :: p ++ r)) = none := by
      rw [stripPrefix, if_neg]
      simp [h.1]
    simp only [List.cons_append, splitOnceSeq, hno, ih h.2, Option.map_some]

theorem splitOnceSeq_eq_none {b : UInt8} {p s : Bytes} (h : b ∉ s) :
    splitOnceSeq (b :: p) s = none := by
  cases hs : splitOnceSeq (b :: p) s with
  | none => rfl
  | some parts =>
    refine absurd ?_ h
    rw [splitOnceSeq_eq_some hs]
    simp

end Vhrn
