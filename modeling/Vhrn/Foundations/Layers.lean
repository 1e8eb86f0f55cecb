import Mathlib.Data.Set.Lattice
import Mathlib.Data.List.Basic
import Mathlib.Data.List.Forall2

/-!
# Layered grants

A grant is given in layers, each a set of entries or unusable. The layers together grant the union of
their sets, and nothing at all when one of them is unusable (`union`). The union does not depend on
the order of the layers or on repetitions, and it grows when a layer grows.
-/

namespace Vhrn.Layers

variable {ε : Type*}

/-- What the layers grant together; `none` when one of them is unusable. -/
def union : List (Option (Set ε)) → Option (Set ε)
  | [] => some ∅
  | none :: _ => none
  | some s :: layers => (union layers).map (s ∪ ·)

theorem union_eq_none_iff {layers : List (Option (Set ε))} : union layers = none ↔ none ∈ layers := by
  induction layers with
  | nil => simp [union]
  | cons layer layers ih => cases layer <;> simp [union, ih]

/-- The granted entries are those of some layer. -/
theorem mem_union {layers : List (Option (Set ε))} {s : Set ε} (h : union layers = some s) (e : ε) :
    e ∈ s ↔ ∃ t, some t ∈ layers ∧ e ∈ t := by
  induction layers generalizing s with
  | nil =>
    obtain rfl := Option.some.inj h
    simp
  | cons layer layers ih =>
    cases layer with
    | none => cases h
    | some t =>
      obtain ⟨u, hu, rfl⟩ := Option.map_eq_some_iff.mp h
      rw [Set.mem_union, ih hu]
      simp

/-- Usable layers grant what any of them does. -/
theorem union_map_some (layers : List (Set ε)) :
    union (layers.map some) = some {e | ∃ s ∈ layers, e ∈ s} := by
  induction layers with
  | nil => simp [union]
  | cons s layers ih =>
    rw [List.map_cons, union, ih, Option.map_some]
    refine congrArg some (Set.ext fun e => ?_)
    simp

/-- **Only the set of layers matters.** -/
theorem union_congr {layers layers' : List (Option (Set ε))}
    (h : ∀ layer, layer ∈ layers ↔ layer ∈ layers') : union layers = union layers' := by
  cases hu : union layers with
  | none => exact (union_eq_none_iff.mpr ((h none).mp (union_eq_none_iff.mp hu))).symm
  | some s =>
    cases hu' : union layers' with
    | none => rw [union_eq_none_iff.mpr ((h none).mpr (union_eq_none_iff.mp hu'))] at hu; cases hu
    | some s' =>
      refine congrArg some (Set.ext fun e => ?_)
      rw [mem_union hu, mem_union hu']
      exact exists_congr fun t => and_congr_left' (h (some t))

theorem union_perm {layers layers' : List (Option (Set ε))} (h : layers.Perm layers') :
    union layers = union layers' := union_congr fun _ => h.mem_iff

/-- **Usable layers that grow grant more.** -/
theorem union_mono {layers layers' : List (Option (Set ε))}
    (h : List.Forall₂ (fun l l' => ∀ s ∈ l, ∃ s' ∈ l', s ⊆ s') layers layers') {s : Set ε}
    (hs : union layers = some s) : ∃ s', union layers' = some s' ∧ s ⊆ s' := by
  induction h generalizing s with
  | nil => exact ⟨s, hs, subset_rfl⟩
  | @cons l l' layers layers' hl _ ih =>
    cases l with
    | none => cases hs
    | some t =>
      obtain ⟨u, hu, rfl⟩ := Option.map_eq_some_iff.mp hs
      obtain ⟨t', ht', hsub⟩ := hl t rfl
      obtain ⟨u', hu', hsub'⟩ := ih hu
      obtain rfl := Option.mem_def.mp ht'
      exact ⟨t' ∪ u', by rw [union, hu']; rfl, Set.union_subset_union hsub hsub'⟩

end Vhrn.Layers
