import Mathlib.Tactic

/-!
# Runs of transition systems

A transition system takes labelled steps, each of which is possible in some states. An interleaving of
several parties is such a system whose labels say which party moves. `run_invariant` carries what every
step keeps to whole runs, `run_invariant_where` what only the steps of some kind keep, `run_history` what
is said of a state together with the steps that led to it, and `length_le_of_run` bounds the runs of a
system whose steps use something up.
-/

namespace Vhrn

variable {σ μ : Type*} {step : σ → μ → Option σ}

/-- The state after some steps, `none` when one of them is not possible. -/
def run (step : σ → μ → Option σ) (s : σ) : List μ → Option σ
  | [] => some s
  | m :: ms => (step s m).bind fun s' => run step s' ms

/-- No step is possible. -/
def Stuck (step : σ → μ → Option σ) (s : σ) : Prop := ∀ m, step s m = none

@[simp] theorem run_nil (s : σ) : run step s [] = some s := rfl

theorem run_cons_eq_some {s t : σ} {m : μ} {ms : List μ} :
    run step s (m :: ms) = some t ↔ ∃ s', step s m = some s' ∧ run step s' ms = some t :=
  Option.bind_eq_some_iff

theorem run_append (s : σ) (ms ms' : List μ) :
    run step s (ms ++ ms') = (run step s ms).bind fun s' => run step s' ms' := by
  induction ms generalizing s with
  | nil => rfl
  | cons m ms ih =>
    rw [List.cons_append, run, run, Option.bind_assoc]
    exact congrArg _ (funext ih)

/-- A run ends with its last step. -/
theorem run_concat_eq_some {s t : σ} {m : μ} {ms : List μ} :
    run step s (ms ++ [m]) = some t ↔ ∃ s', run step s ms = some s' ∧ step s' m = some t := by
  rw [run_append, Option.bind_eq_some_iff]
  refine exists_congr fun s' => and_congr_right fun _ => ?_
  rw [run_cons_eq_some]
  constructor
  · rintro ⟨t', hm, ht⟩
    exact hm.trans ht
  · exact fun hm => ⟨t, hm, rfl⟩

/-- **What every step carries on holds of every run and its end.** -/
theorem run_history {s : σ} {P : List μ → σ → Prop} (hnil : P [] s)
    (hstep : ∀ {ms u m t}, run step s ms = some u → step u m = some t → P ms u → P (ms ++ [m]) t)
    {ms : List μ} {t : σ} (h : run step s ms = some t) : P ms t := by
  induction ms using List.reverseRecOn generalizing t with
  | nil => exact Option.some.inj h ▸ hnil
  | append_singleton ms m ih =>
    obtain ⟨u, hrun, hm⟩ := run_concat_eq_some.mp h
    exact hstep hrun hm (ih hrun)

/-- **What every step keeps holds after every run.** -/
theorem run_invariant {P : σ → Prop} (hstep : ∀ {s m s'}, step s m = some s' → P s → P s') {s t : σ}
    {ms : List μ} (h : run step s ms = some t) (hs : P s) : P t := by
  induction ms generalizing s with
  | nil => exact Option.some.inj h ▸ hs
  | cons m ms ih =>
    obtain ⟨s', hm, hrest⟩ := run_cons_eq_some.mp h
    exact ih hrest (hstep hm hs)

/-- Every step of a run is of some kind. -/
def RunWhere (step : σ → μ → Option σ) (allowed : σ → μ → Prop) (s : σ) : List μ → Prop
  | [] => True
  | m :: ms => allowed s m ∧ ∀ s', step s m = some s' → RunWhere step allowed s' ms

variable (step) in
/-- The steps of a run can be checked one after the other. -/
def decideRunWhere (allowed : σ → μ → Prop) [∀ s m, Decidable (allowed s m)] :
    ∀ (s : σ) (ms : List μ), Decidable (RunWhere step allowed s ms)
  | _, [] => isTrue trivial
  | s, m :: ms =>
    let _ (s' : σ) := decideRunWhere allowed s' ms
    inferInstanceAs (Decidable (allowed s m ∧ ∀ s' ∈ step s m, RunWhere step allowed s' ms))

instance {allowed : σ → μ → Prop} [∀ s m, Decidable (allowed s m)] (s : σ) (ms : List μ) :
    Decidable (RunWhere step allowed s ms) := decideRunWhere step allowed s ms

theorem runWhere_of_forall {allowed : σ → μ → Prop} (h : ∀ s m, allowed s m) (s : σ) (ms : List μ) :
    RunWhere step allowed s ms := by
  induction ms generalizing s with
  | nil => trivial
  | cons m ms ih => exact ⟨h s m, fun s' _ => ih s'⟩

theorem runWhere_of_mem {allowed : μ → Prop} (s : σ) {ms : List μ} (h : ∀ m ∈ ms, allowed m) :
    RunWhere step (fun _ m => allowed m) s ms := by
  induction ms generalizing s with
  | nil => trivial
  | cons m ms ih =>
    exact ⟨h m List.mem_cons_self, fun s' _ => ih s' fun m hm => h m (List.mem_cons_of_mem _ hm)⟩

/-- What the steps of some kind keep holds after every run of them. -/
theorem run_invariant_where {P : σ → Prop} {allowed : σ → μ → Prop}
    (hstep : ∀ {s m s'}, allowed s m → step s m = some s' → P s → P s') {s t : σ} {ms : List μ}
    (hallowed : RunWhere step allowed s ms) (h : run step s ms = some t) (hs : P s) : P t := by
  induction ms generalizing s with
  | nil => exact Option.some.inj h ▸ hs
  | cons m ms ih =>
    obtain ⟨s', hm, hrest⟩ := run_cons_eq_some.mp h
    exact ih (hallowed.2 s' hm) hrest (hstep hallowed.1 hm hs)

/-- Steps that use something up are no more than there is of it. -/
theorem length_le_of_run {left : σ → ℕ} (hless : ∀ {s m s'}, step s m = some s' → left s' < left s)
    {s t : σ} {ms : List μ} (h : run step s ms = some t) : ms.length + left t ≤ left s := by
  induction ms generalizing s with
  | nil =>
    obtain rfl := Option.some.inj h
    exact (Nat.zero_add _).le
  | cons m ms ih =>
    obtain ⟨s', hm, hrest⟩ := run_cons_eq_some.mp h
    have hlt := hless hm
    have hle := ih hrest
    rw [List.length_cons]
    omega

end Vhrn
