import Mathlib.Data.List.Basic

/-!
# Continued lines

Lines that end in a mark are continued by the next line: the mark goes and the next line follows. Joining
leaves lines as they are exactly when none of them but the last is continued (`join_cons_eq_cons_iff`,
line by line).
-/

namespace Vhrn.Continuation

variable {α : Type*} [DecidableEq α]

/-- The lines after continued ones have been joined with what follows. -/
def join (mark : α) : List (List α) → List (List α)
  | [] => []
  | line :: lines =>
    match join mark lines with
    | [] => [line]
    | next :: rest =>
      if line.getLast? = some mark then (line.dropLast ++ next) :: rest else line :: next :: rest

variable {mark : α}

theorem join_eq_nil_iff {lines : List (List α)} : join mark lines = [] ↔ lines = [] := by
  cases lines with
  | nil => exact Iff.rfl
  | cons line lines =>
    rw [join]
    split
    · simp
    · split <;> simp

theorem join_cons_of_not_continued {line : List α} (h : line.getLast? ≠ some mark)
    (lines : List (List α)) : join mark (line :: lines) = line :: join mark lines := by
  rw [join]
  split
  · rename_i hjoin
    rw [hjoin]
  · rename_i next rest hjoin
    rw [if_neg h, hjoin]

theorem join_cons_of_continued {line next : List α} {lines rest : List (List α)}
    (h : line.getLast? = some mark) (hjoin : join mark lines = next :: rest) :
    join mark (line :: lines) = (line.dropLast ++ next) :: rest := by
  rw [join, hjoin]
  exact if_pos h

/-- Joining makes no line shorter than the lines without their marks. -/
theorem le_length_of_mem_join {n : ℕ} {lines : List (List α)} (h : ∀ line ∈ lines, n < line.length)
    {joined : List α} (hj : joined ∈ join mark lines) : n ≤ joined.length := by
  induction lines generalizing joined with
  | nil => exact absurd hj List.not_mem_nil
  | cons line lines ih =>
    obtain ⟨hline, hlines⟩ := List.forall_mem_cons.mp h
    by_cases hc : line.getLast? = some mark
    · cases hjoin : join mark lines with
      | nil =>
        rw [join, hjoin] at hj
        rw [List.mem_singleton.mp hj]
        exact Nat.le_of_lt hline
      | cons next rest =>
        rw [join_cons_of_continued hc hjoin] at hj
        rcases List.mem_cons.mp hj with rfl | hj
        · rw [List.length_append, List.length_dropLast]
          omega
        · exact ih hlines (hjoin ▸ List.mem_cons_of_mem _ hj)
    · rw [join_cons_of_not_continued hc] at hj
      rcases List.mem_cons.mp hj with rfl | hj
      · exact Nat.le_of_lt hline
      · exact ih hlines hj

/-- What is in a joined line is in a line. -/
theorem exists_mem_of_mem_join {lines : List (List α)} {joined : List α}
    (hj : joined ∈ join mark lines) {x : α} (hx : x ∈ joined) : ∃ line ∈ lines, x ∈ line := by
  induction lines generalizing joined with
  | nil => exact absurd hj List.not_mem_nil
  | cons line lines ih =>
    rw [List.exists_mem_cons_iff]
    by_cases hc : line.getLast? = some mark
    · cases hjoin : join mark lines with
      | nil =>
        rw [join, hjoin] at hj
        exact .inl (List.mem_singleton.mp hj ▸ hx)
      | cons next rest =>
        rw [join_cons_of_continued hc hjoin] at hj
        rcases List.mem_cons.mp hj with rfl | hj
        · rcases List.mem_append.mp hx with hx | hx
          · exact .inl (List.dropLast_subset _ hx)
          · exact .inr (ih (hjoin ▸ List.mem_cons_self) hx)
        · exact .inr (ih (hjoin ▸ List.mem_cons_of_mem _ hj) hx)
    · rw [join_cons_of_not_continued hc] at hj
      rcases List.mem_cons.mp hj with rfl | hj
      · exact .inl hx
      · exact .inr (ih hj hx)

/-- **A line stays as it is exactly when it is not continued**, before lines that are long enough to
show. -/
theorem join_cons_eq_cons_iff {line : List α} {lines rest : List (List α)} (hne : lines ≠ [])
    (hlong : ∀ next ∈ lines, 2 < next.length) :
    join mark (line :: lines) = line :: rest ↔
      line.getLast? ≠ some mark ∧ join mark lines = rest := by
  by_cases hc : line.getLast? = some mark
  · obtain ⟨next, after, hjoin⟩ := List.exists_cons_of_ne_nil (join_eq_nil_iff.not.mpr hne)
    rw [join_cons_of_continued hc hjoin]
    constructor
    · intro h
      have hlength := congrArg List.length (List.cons.inj h).1
      have hnext : 2 ≤ next.length := le_length_of_mem_join hlong (hjoin ▸ List.mem_cons_self)
      rw [List.length_append, List.length_dropLast] at hlength
      omega
    · rintro ⟨h, -⟩
      exact absurd hc h
  · rw [join_cons_of_not_continued hc]
    simp [hc]

end Vhrn.Continuation
