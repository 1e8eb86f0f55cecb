import Vhrn.Foundations.Runs

/-!
# Copying a stream

A copier reads a piece of what its source holds and writes it, in parts, before it reads on. `Copy` is
its state and `Copy.transfer` one read or one write of any size that its buffer and the sink allow.
Whatever the sizes, nothing is lost, repeated or moved (`content_transfer`), and a copier that has not
copied everything can go on (`exists_transfer`).
-/

namespace Vhrn

variable {α : Type*}

/-- What the sink has been given, what has been read and not yet written, and what the source holds. -/
structure Copy (α : Type*) where
  sent : List α
  pending : List α
  incoming : List α

/-- A read of so many elements, or a write of so many of those that have been read. -/
inductive Transfer
  | read (n : ℕ)
  | write (n : ℕ)
  deriving DecidableEq

namespace Copy

/-- One read or one write of a copier with a buffer for `capacity` elements. -/
def transfer (capacity : ℕ) (c : Copy α) : Transfer → Option (Copy α)
  | .read n =>
    if c.pending = [] ∧ 1 ≤ n ∧ n ≤ capacity ∧ n ≤ c.incoming.length then
      some { c with pending := c.incoming.take n, incoming := c.incoming.drop n }
    else none
  | .write n =>
    if 1 ≤ n ∧ n ≤ c.pending.length then
      some { c with sent := c.sent ++ c.pending.take n, pending := c.pending.drop n }
    else none

/-- Everything the sink is given in the end. -/
def content (c : Copy α) : List α := c.sent ++ c.pending ++ c.incoming

/-- Nothing is left to be copied. -/
def Drained (c : Copy α) : Prop := c.pending = [] ∧ c.incoming = []

/-- How many transfers are left at most. -/
def left (c : Copy α) : ℕ := c.pending.length + 2 * c.incoming.length

variable {capacity : ℕ} {c c' : Copy α} {t : Transfer}

instance [DecidableEq α] (c : Copy α) : Decidable c.Drained :=
  inferInstanceAs (Decidable (c.pending = [] ∧ c.incoming = []))

theorem transfer_read {n : ℕ} (h : c.transfer capacity (.read n) = some c') :
    (c.pending = [] ∧ 1 ≤ n ∧ n ≤ capacity ∧ n ≤ c.incoming.length) ∧
      c' = { c with pending := c.incoming.take n, incoming := c.incoming.drop n } := by
  obtain ⟨hguard, h⟩ := Option.ite_none_right_eq_some.mp h
  exact ⟨hguard, (Option.some.inj h).symm⟩

theorem transfer_write {n : ℕ} (h : c.transfer capacity (.write n) = some c') :
    (1 ≤ n ∧ n ≤ c.pending.length) ∧
      c' = { c with sent := c.sent ++ c.pending.take n, pending := c.pending.drop n } := by
  obtain ⟨hguard, h⟩ := Option.ite_none_right_eq_some.mp h
  exact ⟨hguard, (Option.some.inj h).symm⟩

/-- **A transfer loses, repeats and moves nothing.** -/
theorem content_transfer (h : c.transfer capacity t = some c') : c'.content = c.content := by
  cases t with
  | read n =>
    obtain ⟨⟨hpending, -⟩, rfl⟩ := transfer_read h
    unfold content
    rw [hpending, List.append_nil, List.append_assoc, List.take_append_drop]
  | write n =>
    obtain ⟨-, rfl⟩ := transfer_write h
    unfold content
    rw [List.append_assoc c.sent, List.take_append_drop]

theorem left_transfer (h : c.transfer capacity t = some c') : c'.left < c.left := by
  cases t with
  | read n =>
    obtain ⟨⟨hpending, hpos, -, hle⟩, rfl⟩ := transfer_read h
    unfold left
    rw [hpending, List.length_nil, List.length_take, List.length_drop]
    omega
  | write n =>
    obtain ⟨⟨hpos, hle⟩, rfl⟩ := transfer_write h
    show (c.pending.drop n).length + 2 * c.incoming.length < c.pending.length + 2 * c.incoming.length
    rw [List.length_drop]
    omega

theorem not_drained_of_transfer (h : c.transfer capacity t = some c') : ¬ c.Drained := by
  rintro ⟨hpending, hincoming⟩
  cases t with
  | read n =>
    obtain ⟨⟨-, hpos, -, hle⟩, -⟩ := transfer_read h
    rw [hincoming, List.length_nil] at hle
    omega
  | write n =>
    obtain ⟨⟨hpos, hle⟩, -⟩ := transfer_write h
    rw [hpending, List.length_nil] at hle
    omega

/-- What has been read can be written. -/
theorem transfer_write_one (capacity : ℕ) (h : c.pending ≠ []) :
    (c.transfer capacity (.write 1)).isSome = true := by
  have hpos := List.length_pos_of_ne_nil h
  rw [transfer, if_pos ⟨le_rfl, hpos⟩]
  rfl

/-- **A copier that has not copied everything can go on.** -/
theorem exists_transfer (hcapacity : 1 ≤ capacity) (h : ¬ c.Drained) :
    ∃ t, (c.transfer capacity t).isSome = true := by
  by_cases hpending : c.pending = []
  · have hincoming : c.incoming ≠ [] := fun hnil => h ⟨hpending, hnil⟩
    have hpos := List.length_pos_of_ne_nil hincoming
    refine ⟨.read 1, ?_⟩
    rw [transfer, if_pos ⟨hpending, le_rfl, hcapacity, hpos⟩]
    rfl
  · exact ⟨.write 1, transfer_write_one capacity hpending⟩

theorem sent_of_drained (h : c.Drained) : c.sent = c.content := by
  rw [content, h.1, h.2, List.append_nil, List.append_nil]

/-- What the sink has been given is the beginning of what it is given in the end. -/
theorem sent_isPrefix (c : Copy α) : c.sent <+: c.content :=
  ⟨c.pending ++ c.incoming, (List.append_assoc _ _ _).symm⟩

end Copy

end Vhrn
