import Mathlib.Tactic

/-!
# Computations with a trace

A computation that leaves a trace of events next to its result. `cut` is what happens to one that is
dropped before it ends: some of its events have happened, and another result takes the place of its
own.
-/

namespace Vhrn

/-- A result and the events on the way to it, first to last. -/
@[ext]
structure Traced (ε α : Type*) where
  events : List ε
  result : α

namespace Traced

variable {ε α β : Type*}

instance : Monad (Traced ε) where
  pure a := ⟨[], a⟩
  bind x f := ⟨x.events ++ (f x.result).events, (f x.result).result⟩

/-- One event. -/
def emit (e : ε) : Traced ε Unit := ⟨[e], ()⟩

/-- A computation that is dropped after `n` of its events, if it is dropped. -/
def cut (drop : Option ℕ) (other : α) (x : Traced ε α) : Traced ε α :=
  match drop with
  | none => x
  | some n => ⟨x.events.take n, other⟩

section

variable {α β : Type _}

@[simp] theorem events_pure (a : α) : (pure a : Traced ε α).events = [] := rfl

@[simp] theorem result_pure (a : α) : (pure a : Traced ε α).result = a := rfl

@[simp] theorem events_bind (x : Traced ε α) (f : α → Traced ε β) :
    (x >>= f).events = x.events ++ (f x.result).events := rfl

@[simp] theorem result_bind (x : Traced ε α) (f : α → Traced ε β) :
    (x >>= f).result = (f x.result).result := rfl

@[simp] theorem events_emit (e : ε) : (emit e).events = [e] := rfl

@[simp] theorem cut_none (other : α) (x : Traced ε α) : x.cut none other = x := rfl

theorem mem_events_cut {drop : Option ℕ} {other : α} {x : Traced ε α} {e : ε}
    (h : e ∈ (x.cut drop other).events) : e ∈ x.events := by
  cases drop with
  | none => exact h
  | some n => exact List.mem_of_mem_take h

/-- What comes before an event of a dropped computation comes before it in the whole. -/
theorem of_events_cut {drop : Option ℕ} {other : α} {x : Traced ε α} {before after : List ε} {e : ε}
    (h : (x.cut drop other).events = before ++ e :: after) :
    ∃ after', x.events = before ++ e :: after' := by
  cases drop with
  | none => exact ⟨after, h⟩
  | some n =>
    refine ⟨after ++ x.events.drop n, ?_⟩
    rw [← List.cons_append, ← List.append_assoc, ← h]
    exact (List.take_append_drop n x.events).symm

/-- An event that a first computation does not leave comes after all of its events. -/
theorem append_eq_of_not_mem {xs ys before after : List ε} {e : ε}
    (h : xs ++ ys = before ++ e :: after) (hx : e ∉ xs) : xs ⊆ before ∧ e ∈ ys := by
  rcases List.append_eq_append_iff.mp h with ⟨mid, rfl, rfl⟩ | ⟨mid, rfl, hmid⟩
  · exact ⟨List.subset_append_left xs mid, by simp⟩
  · cases mid with
    | nil =>
      rw [List.nil_append] at hmid
      exact ⟨by simp, hmid ▸ List.mem_cons_self⟩
    | cons e' mid =>
      obtain ⟨rfl, -⟩ := List.cons.inj hmid
      exact absurd (by simp) hx

end

end Traced

end Vhrn
