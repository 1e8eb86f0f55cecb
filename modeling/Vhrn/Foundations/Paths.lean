import Vhrn.Foundations.Split

/-!
# Paths and the texts made of them

A path is a byte string. `join` extends it the way a path library does, its `components` are what
stands between the separators, and two paths are `Apart` when neither is the other or an ancestor of
it. A path's text replaces every ill-formed sequence by the replacement character (`toStringLossy`);
since a separator is never part of a sequence, the text of a path whose end is ASCII is the text of its
beginning followed by that end (`toStringLossy_append`).
-/

namespace Vhrn

/-! ## Components -/

namespace Paths

/-- Join a path: an absolute one replaces the path, another follows it after one separator. -/
def join (p x : Bytes) : Bytes :=
  if x.head? = some 47 then x
  else if p = [] ∨ p.getLast? = some 47 then p ++ x
  else p ++ 47 :: x

/-- A name between separators that is neither empty nor a dot. -/
def isComponent (c : Bytes) : Bool := decide (c ≠ [] ∧ c ≠ [46])

/-- The components of a path, the root first when the path is absolute. -/
def components (p : Bytes) : List Bytes :=
  (if p.head? = some 47 then [[47]] else []) ++ (p.splitOn 47).filter isComponent

/-- The second path is the first or lies inside it. -/
def Within (p q : Bytes) : Prop := components p <+: components q

instance (p q : Bytes) : Decidable (Within p q) := inferInstanceAs (Decidable (_ <+: _))

/-- Neither path is the other, lies inside it or is an ancestor of it. -/
def Apart (p q : Bytes) : Prop := ¬ Within p q ∧ ¬ Within q p

instance (p q : Bytes) : Decidable (Apart p q) := inferInstanceAs (Decidable (_ ∧ _))

/-- A name that a path can end in: a component without a separator. -/
structure Name (name : Bytes) : Prop where
  noSeparator : (47 : UInt8) ∉ name
  component : isComponent name = true

theorem Name.ne_nil {name : Bytes} (h : Name name) : name ≠ [] :=
  (of_decide_eq_true h.component).1

theorem Name.relative {name : Bytes} (h : Name name) : name.head? ≠ some 47 := fun hh =>
  h.noSeparator (List.mem_of_mem_head? hh)

theorem join_ne_nil {p name : Bytes} (h : Name name) : join p name ≠ [] := by
  unfold join
  rw [if_neg h.relative]
  split <;> simp [h.ne_nil]

/-- An absolute path does not depend on what it is resolved against. -/
theorem join_of_absolute {x : Bytes} (h : x.head? = some 47) (p : Bytes) : join p x = x := if_pos h

/-- Below an absolute path every path is absolute. -/
theorem absolute_join {p : Bytes} (hp : p.head? = some 47) (name : Bytes) :
    (join p name).head? = some 47 := by
  obtain ⟨s, rfl⟩ := List.head?_eq_some_iff.mp hp
  unfold join
  split
  · assumption
  · split
    · rfl
    · rfl

/-- After a path that ends in a name, joining writes a separator. -/
theorem join_eq {p name : Bytes} (hp : p ≠ []) (hlast : p.getLast? ≠ some 47) (h : Name name) :
    join p name = p ++ 47 :: name := by
  unfold join
  rw [if_neg h.relative, if_neg (by simp [hp, hlast])]

theorem splitOn_name {name : Bytes} (h : Name name) : (name.splitOn 47).filter isComponent = [name] := by
  rw [List.splitOn_eq_singleton h.noSeparator, List.filter_singleton, h.component]
  rfl

/-- What follows a separator is the last component. -/
theorem components_separated (p : Bytes) {name : Bytes} (h : Name name) :
    components (p ++ 47 :: name) = components (p ++ [47]) ++ [name] := by
  have hhead : (p ++ 47 :: name).head? = (p ++ [47]).head? := by cases p <;> rfl
  unfold components
  rw [hhead, List.append_assoc, List.splitOn_append_cons_self, List.splitOn_append_cons_self,
    List.filter_append, List.filter_append, splitOn_name h]
  simp [isComponent]

/-- A separator at the end adds no component. -/
theorem components_separator {p : Bytes} (hp : p ≠ []) : components (p ++ [47]) = components p := by
  obtain ⟨b, p, rfl⟩ := List.exists_cons_of_ne_nil hp
  have hhead : (b :: p ++ [47]).head? = (b :: p).head? := rfl
  unfold components
  rw [hhead, List.splitOn_append_cons_self, List.filter_append]
  simp [isComponent]

/-- A joined name comes right after the one separator, or after the one that the path ends with. -/
theorem join_cases {p name : Bytes} (hp : p ≠ []) (h : Name name) :
    (∃ p', p = p' ++ [47] ∧ join p name = p' ++ 47 :: name) ∨ join p name = p ++ 47 :: name := by
  by_cases hlast : p.getLast? = some 47
  · obtain ⟨p', rfl⟩ := List.getLast?_eq_some_iff.mp hlast
    refine .inl ⟨p', rfl, ?_⟩
    rw [join, if_neg h.relative, if_pos (.inr hlast)]
    simp
  · exact .inr (join_eq hp hlast h)

/-- **A joined name is the last component.** -/
theorem components_join {p name : Bytes} (hp : p ≠ []) (h : Name name) :
    components (join p name) = components p ++ [name] := by
  rcases join_cases hp h with ⟨p', rfl, hjoin⟩ | hjoin
  · rw [hjoin, components_separated p' h]
  · rw [hjoin, components_separated p h, components_separator hp]

/-- Paths that leave a common beginning by different names are apart. -/
theorem apart_of_components {p q : Bytes} {common rest rest' : List Bytes} {a b : Bytes}
    (hp : components p = common ++ a :: rest) (hq : components q = common ++ b :: rest') (h : a ≠ b) :
    Apart p q := by
  unfold Apart Within
  rw [hp, hq, List.prefix_append_right_inj, List.prefix_append_right_inj]
  constructor
  · intro hpre
    exact h (List.cons_prefix_cons.mp hpre).1
  · intro hpre
    exact h (List.cons_prefix_cons.mp hpre).1.symm

end Paths

/-! ## Lossy texts -/

/-- Whether a scalar starts here, and how many octets after the first are part of it, or of the
ill-formed sequence. -/
def scalarStep (b : UInt8) (s : Bytes) : Bool × ℕ :=
  if b < 0x80 then (true, 0)
  else if 0xC2 ≤ b && b ≤ 0xDF then
    match s with
    | c :: _ => if isContinuation c then (true, 1) else (false, 0)
    | [] => (false, 0)
  else if 0xE0 ≤ b && b ≤ 0xEF then
    match s with
    | c :: s =>
      if isSecondOf3 b c then
        match s with
        | d :: _ => if isContinuation d then (true, 2) else (false, 1)
        | [] => (false, 1)
      else (false, 0)
    | [] => (false, 0)
  else if 0xF0 ≤ b && b ≤ 0xF4 then
    match s with
    | c :: s =>
      if isSecondOf4 b c then
        match s with
        | d :: s =>
          if isContinuation d then
            match s with
            | e :: _ => if isContinuation e then (true, 3) else (false, 2)
            | [] => (false, 2)
          else (false, 1)
        | [] => (false, 1)
      else (false, 0)
    | [] => (false, 0)
  else (false, 0)

/-- The replacement character. -/
def replacement : Bytes := [0xEF, 0xBF, 0xBD]

/-- The text of the octets after a step of which some octets are still to be copied or skipped. -/
def toStringLossyFrom (copied skipped : ℕ) : Bytes → Bytes
  | [] => []
  | b :: s =>
    match copied, skipped with
    | n + 1, m => b :: toStringLossyFrom n m s
    | 0, m + 1 => toStringLossyFrom 0 m s
    | 0, 0 =>
      match scalarStep b s with
      | (true, n) => b :: toStringLossyFrom n 0 s
      | (false, n) => replacement ++ toStringLossyFrom 0 n s

/-- The text of a byte string, with the replacement character for every ill-formed sequence. -/
def toStringLossy (s : Bytes) : Bytes := toStringLossyFrom 0 0 s

example : toStringLossy (ascii "/a" ++ [0xC3, 0xA9, 0xF0, 0x9F, 0x41, 0xFF]) =
    ascii "/a" ++ [0xC3, 0xA9] ++ replacement ++ [0x41] ++ replacement := by decide

theorem isContinuation_of_lt {b : UInt8} (h : b < 0x80) : isContinuation b = false := by
  have hall (b : UInt8) : b < 0x80 → isContinuation b = false := by
    revert b; exact forall_byte (by decide +kernel)
  exact hall b h

theorem isSecondOf3_of_lt (b : UInt8) {c : UInt8} (h : c < 0x80) : isSecondOf3 b c = false := by
  have h1 : ¬ (0xA0 : UInt8) ≤ c := UInt8.not_le.mpr (UInt8.lt_trans h (by decide))
  have h2 : ¬ (0x80 : UInt8) ≤ c := UInt8.not_le.mpr h
  simp [isSecondOf3, h1, h2, isContinuation]

theorem isSecondOf4_of_lt (b : UInt8) {c : UInt8} (h : c < 0x80) : isSecondOf4 b c = false := by
  have h1 : ¬ (0x90 : UInt8) ≤ c := UInt8.not_le.mpr (UInt8.lt_trans h (by decide))
  have h2 : ¬ (0x80 : UInt8) ≤ c := UInt8.not_le.mpr h
  simp [isSecondOf4, h1, h2, isContinuation]

/-- An ASCII octet ends whatever comes before it. -/
theorem scalarStep_append (b : UInt8) (s : Bytes) {a : UInt8} (ha : a < 0x80) (t : Bytes) :
    scalarStep b (s ++ a :: t) = scalarStep b s := by
  unfold scalarStep
  match s with
  | [] => simp [isContinuation_of_lt ha, isSecondOf3_of_lt b ha, isSecondOf4_of_lt b ha]
  | [c] => simp [isContinuation_of_lt ha]
  | [c, d] => simp [isContinuation_of_lt ha]
  | c :: d :: e :: s => rfl

theorem scalarStep_le (b : UInt8) (s : Bytes) : (scalarStep b s).2 ≤ s.length := by
  unfold scalarStep
  match s with
  | [] => split_ifs <;> simp
  | [c] => simp only [List.length_cons, List.length_nil]; split_ifs <;> simp
  | [c, d] => simp only [List.length_cons, List.length_nil]; split_ifs <;> simp
  | c :: d :: e :: s => simp only [List.length_cons]; split_ifs <;> simp

theorem toStringLossyFrom_append {copied skipped : ℕ} {s : Bytes} (h : copied + skipped ≤ s.length)
    {a : UInt8} (ha : a < 0x80) (t : Bytes) :
    toStringLossyFrom copied skipped (s ++ a :: t) =
      toStringLossyFrom copied skipped s ++ toStringLossy (a :: t) := by
  induction s generalizing copied skipped with
  | nil =>
    obtain ⟨rfl, rfl⟩ : copied = 0 ∧ skipped = 0 := by simpa using h
    rfl
  | cons b s ih =>
    rw [List.length_cons] at h
    match copied, skipped with
    | n + 1, m => exact congrArg (b :: ·) (ih (by omega))
    | 0, m + 1 => exact ih (by omega)
    | 0, 0 =>
      have hle := scalarStep_le b s
      rw [List.cons_append]
      simp only [toStringLossyFrom, scalarStep_append b s ha t]
      match scalarStep b s, hle with
      | (true, n), hle => exact congrArg (b :: ·) (ih (by simpa using hle))
      | (false, n), hle =>
        simp only [List.append_assoc]
        rw [ih (by simpa using hle)]

/-- **An ASCII octet starts a text of its own.** -/
theorem toStringLossy_append (s : Bytes) {a : UInt8} (ha : a < 0x80) (t : Bytes) :
    toStringLossy (s ++ a :: t) = toStringLossy s ++ toStringLossy (a :: t) :=
  toStringLossyFrom_append (Nat.zero_le _) ha t

theorem toStringLossy_ne_nil {s : Bytes} (h : s ≠ []) : toStringLossy s ≠ [] := by
  obtain ⟨b, s, rfl⟩ := List.exists_cons_of_ne_nil h
  rw [toStringLossy, toStringLossyFrom]
  match scalarStep b s with
  | (true, n) => exact List.cons_ne_nil _ _
  | (false, n) => exact List.cons_ne_nil _ _

theorem toStringLossy_of_isAscii {s : Bytes} (h : isAscii s = true) : toStringLossy s = s := by
  induction s with
  | nil => rfl
  | cons b s ih =>
    rw [isAscii, List.all_cons, Bool.and_eq_true, decide_eq_true_eq] at h
    have hb : scalarStep b s = (true, 0) := if_pos h.1
    rw [toStringLossy, toStringLossyFrom, hb]
    exact congrArg (b :: ·) (ih h.2)

/-- **A name joined to a path is the last component of the text too.** -/
theorem Paths.components_toStringLossy_join {p name : Bytes} (hp : p ≠ []) (h : Paths.Name name)
    (ha : isAscii name = true) : Paths.components (toStringLossy (Paths.join p name)) =
      Paths.components (toStringLossy p) ++ [name] := by
  have hname : toStringLossy (47 :: name) = 47 :: name :=
    toStringLossy_of_isAscii (by simpa [isAscii] using ha)
  rcases Paths.join_cases hp h with ⟨p', rfl, hjoin⟩ | hjoin
  · rw [hjoin, toStringLossy_append p' (by decide), toStringLossy_append p' (by decide), hname,
      Paths.components_separated _ h]
    rfl
  · rw [hjoin, toStringLossy_append p (by decide), hname, Paths.components_separated _ h,
      Paths.components_separator (toStringLossy_ne_nil hp)]

end Vhrn
