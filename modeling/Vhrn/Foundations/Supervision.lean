import Vhrn.Foundations.Runs

/-!
# Startup and teardown under a gate

A runner starts resources one after the other while a terminator may ask it to stop and clean up in its
place. Both follow a `Script`. They share a gate, a flag that asks for termination, and slots through
which the runner hands the cleanup of a resource over; the cleanup of a resource runs once, whoever runs
it, but who finds it begun does not wait for its end. `Supervision.step` is one step of either party.

What a runner does that is left alone can be read off its script (`Supervision.trace_of_run_alone`), and
no cleanup is begun twice, whatever the scripts are (`Supervision.count_begun_le`).
-/

namespace Vhrn

/-- The party that starts the resources, and the one that terminates it. -/
inductive Party
  | runner
  | terminator
  deriving DecidableEq

/-- One instruction of a script. -/
inductive Instr (ι ρ : Type)
  | lock
  | unlock
  /-- From here on the terminator can act. -/
  | arm
  /-- Asks for termination. -/
  | request
  /-- Puts the cleanup of a resource into its slot. -/
  | install (x : ρ)
  /-- Takes the cleanup of a resource out of its slot, if it is there, and runs it. -/
  | take (x : ρ)
  /-- Takes the cleanup of a resource out of its slot without running it. -/
  | disarm (x : ρ)
  /-- Runs the cleanup of a resource, unless it has been begun. -/
  | cleanup (x : ρ)
  /-- Is in the cleanup of a resource. -/
  | cleaning (x : ρ)
  /-- Waits until a resource has ended by itself or is being cleaned up; the wait may fail. -/
  | await (step : ι) (x : ρ)
  deriving DecidableEq

/-- What a party still has to do. -/
inductive Script (ι ρ : Type)
  | done
  | seq (i : Instr ι ρ) (next : Script ι ρ)
  /-- A step that succeeds or fails. -/
  | attempt (step : ι) (succeeded failed : Script ι ρ)
  /-- Looks whether termination has been asked for. -/
  | check (clear requested : Script ι ρ)
  /-- A step that starts a resource when it succeeds. -/
  | start (step : ι) (x : ρ) (started failed : Script ι ρ)
  deriving DecidableEq

/-- How far the cleanup of a resource is. -/
inductive Progress
  | idle
  | running (p : Party)
  | completed
  deriving DecidableEq

inductive Event (ρ : Type)
  | started (x : ρ)
  | exited (x : ρ)
  | begun (x : ρ)
  | released (x : ρ)
  deriving DecidableEq

structure Supervision (ι ρ : Type) where
  script : Party → Script ι ρ
  gate : Option Party
  armed : Bool
  requested : Bool
  slot : ρ → Bool
  progress : ρ → Progress
  trace : List (Event ρ)

variable {ι ρ : Type} [DecidableEq ρ]

namespace Supervision

/-- The two parties before their first steps. -/
def new (runner terminator : Script ι ρ) : Supervision ι ρ where
  script p := match p with | .runner => runner | .terminator => terminator
  gate := none
  armed := false
  requested := false
  slot _ := false
  progress _ := .idle
  trace := []

def goto (s : Supervision ι ρ) (p : Party) (next : Script ι ρ) : Supervision ι ρ :=
  { s with script := Function.update s.script p next }

def emit (s : Supervision ι ρ) (e : Event ρ) : Supervision ι ρ := { s with trace := s.trace ++ [e] }

def setSlot (s : Supervision ι ρ) (x : ρ) (present : Bool) : Supervision ι ρ :=
  { s with slot := Function.update s.slot x present }

def setProgress (s : Supervision ι ρ) (x : ρ) (progress : Progress) : Supervision ι ρ :=
  { s with progress := Function.update s.progress x progress }

/-- One instruction of a party. -/
def perform (s : Supervision ι ρ) (p : Party) (next : Script ι ρ) (ok : Bool) :
    Instr ι ρ → Option (Supervision ι ρ)
  | .lock => if s.gate = none then some { s.goto p next with gate := some p } else none
  | .unlock => some { s.goto p next with gate := none }
  | .arm => some { s.goto p next with armed := true }
  | .request => if s.armed then some { s.goto p next with requested := true } else none
  | .install x => some ((s.goto p next).setSlot x true)
  | .take x =>
    some (if s.slot x then (s.goto p (.seq (.cleanup x) next)).setSlot x false else s.goto p next)
  | .disarm x => some ((s.goto p next).setSlot x false)
  | .cleanup x =>
    some (if s.progress x = .idle then
        ((s.goto p (.seq (.cleaning x) next)).setProgress x (.running p)).emit (.begun x)
      else s.goto p next)
  | .cleaning x => some (((s.goto p next).setProgress x .completed).emit (.released x))
  | .await _ x =>
    some (if s.progress x = .idle ∧ ok = true then (s.goto p next).emit (.exited x) else s.goto p next)

/-- One step of a party, with the outcome of what may fail. -/
def step (s : Supervision ι ρ) : Party × Bool → Option (Supervision ι ρ)
  | (p, ok) =>
    match s.script p with
    | .done => none
    | .seq i next => s.perform p next ok i
    | .attempt _ succeeded failed => some (s.goto p (if ok then succeeded else failed))
    | .check clear requested => some (s.goto p (if s.requested then requested else clear))
    | .start _ x started failed =>
      some (if ok then (s.goto p started).emit (.started x) else s.goto p failed)

end Supervision

/-! ## The runner alone -/

/-- The step whose outcome decides how a script goes on. -/
def Script.fallible : Script ι ρ → Option ι
  | .seq (.await step _) _ | .attempt step _ _ | .start step _ _ _ => some step
  | _ => none

/-- The events of a cleanup that runs to its end, if it has not been begun. -/
def cleaned (progress : ρ → Progress) (x : ρ) : List (Event ρ) :=
  if progress x = .idle then [.begun x, .released x] else []

/-- The events of a script that is followed alone, with the given outcomes of its steps. -/
def Script.events (outcome : ι → Bool) :
    Script ι ρ → Bool → (ρ → Bool) → (ρ → Progress) → List (Event ρ)
  | .done, _, _, _ => []
  | .seq i next, requested, slot, progress =>
    match i with
    | .lock | .unlock | .arm => next.events outcome requested slot progress
    | .request => next.events outcome true slot progress
    | .install x => next.events outcome requested (Function.update slot x true) progress
    | .disarm x => next.events outcome requested (Function.update slot x false) progress
    | .take x =>
      if slot x then
        cleaned progress x ++ next.events outcome requested (Function.update slot x false)
          (if progress x = .idle then Function.update progress x .completed else progress)
      else next.events outcome requested slot progress
    | .cleanup x =>
      cleaned progress x ++ next.events outcome requested slot
        (if progress x = .idle then Function.update progress x .completed else progress)
    | .cleaning x =>
      .released x :: next.events outcome requested slot (Function.update progress x .completed)
    | .await step x =>
      (if progress x = .idle ∧ outcome step = true then [.exited x] else []) ++
        next.events outcome requested slot progress
  | .attempt step succeeded failed, requested, slot, progress =>
    if outcome step then succeeded.events outcome requested slot progress
    else failed.events outcome requested slot progress
  | .check clear asked, requested, slot, progress =>
    if requested then asked.events outcome requested slot progress
    else clear.events outcome requested slot progress
  | .start step x started failed, requested, slot, progress =>
    if outcome step then .started x :: started.events outcome requested slot progress
    else failed.events outcome requested slot progress

namespace Supervision

/-- The runner takes the step, and what may fail has the given outcome. -/
def Follows (outcome : ι → Bool) (s : Supervision ι ρ) (m : Party × Bool) : Prop :=
  m.1 = .runner ∧ ∀ step ∈ (s.script .runner).fallible, m.2 = outcome step

instance (outcome : ι → Bool) (s : Supervision ι ρ) (m : Party × Bool) :
    Decidable (s.Follows outcome m) :=
  inferInstanceAs (Decidable (m.1 = .runner ∧ ∀ step ∈ (s.script .runner).fallible, m.2 = outcome step))

/-- What is still to happen when the runner goes on alone. -/
def remaining (outcome : ι → Bool) (s : Supervision ι ρ) : List (Event ρ) :=
  (s.script .runner).events outcome s.requested s.slot s.progress

variable {s s' t : Supervision ι ρ} {m : Party × Bool} {p q : Party} {next : Script ι ρ} {x y : ρ}
  {i : Instr ι ρ} {outcome : ι → Bool}

section

omit [DecidableEq ρ]

@[simp] theorem script_goto_self : (s.goto p next).script p = next := Function.update_self ..

theorem script_goto_of_ne (h : q ≠ p) : (s.goto p next).script q = s.script q :=
  Function.update_of_ne h ..

@[simp] theorem gate_goto : (s.goto p next).gate = s.gate := rfl

@[simp] theorem armed_goto : (s.goto p next).armed = s.armed := rfl

@[simp] theorem requested_goto : (s.goto p next).requested = s.requested := rfl

@[simp] theorem slot_goto : (s.goto p next).slot = s.slot := rfl

@[simp] theorem progress_goto : (s.goto p next).progress = s.progress := rfl

@[simp] theorem trace_goto : (s.goto p next).trace = s.trace := rfl

end

/-- **A step of the runner is the first of what remains.** -/
theorem remaining_step (hfollows : s.Follows outcome m) (h : s.step m = some s') :
    s'.trace ++ s'.remaining outcome = s.trace ++ s.remaining outcome := by
  obtain ⟨p, ok⟩ := m
  obtain ⟨hp, hok⟩ := hfollows
  obtain rfl : p = .runner := hp
  unfold remaining
  cases hscript : s.script .runner with
  | done => simp [step, hscript] at h
  | attempt step a b =>
    have hstep : ok = outcome step := hok step (by rw [hscript]; rfl)
    simp only [Supervision.step, hscript, Option.some.injEq] at h
    subst h
    cases hok' : outcome step <;> simp [Script.events, hstep, hok']
  | check a b =>
    simp only [Supervision.step, hscript, Option.some.injEq] at h
    subst h
    cases hrequested : s.requested <;> simp [Script.events, hrequested]
  | start step x a b =>
    have hstep : ok = outcome step := hok step (by rw [hscript]; rfl)
    simp only [Supervision.step, hscript, Option.some.injEq] at h
    subst h
    cases hok' : outcome step <;> simp [Script.events, hstep, hok', emit]
  | seq i next =>
    simp only [Supervision.step, hscript] at h
    cases i with
    | lock =>
      obtain ⟨-, h⟩ := Option.ite_none_right_eq_some.mp h
      obtain rfl := Option.some.inj h
      simp [Script.events]
    | unlock =>
      obtain rfl := Option.some.inj h
      simp [Script.events]
    | arm =>
      obtain rfl := Option.some.inj h
      simp [Script.events]
    | request =>
      obtain ⟨-, h⟩ := Option.ite_none_right_eq_some.mp h
      obtain rfl := Option.some.inj h
      simp [Script.events]
    | install x =>
      obtain rfl := Option.some.inj h
      simp [Script.events, setSlot]
    | disarm x =>
      obtain rfl := Option.some.inj h
      simp [Script.events, setSlot]
    | take x =>
      obtain rfl := Option.some.inj h
      cases hslot : s.slot x <;> simp [Script.events, setSlot, hslot]
    | cleanup x =>
      obtain rfl := Option.some.inj h
      by_cases hidle : s.progress x = .idle <;>
        simp [Script.events, setProgress, emit, cleaned, hidle]
    | cleaning x =>
      obtain rfl := Option.some.inj h
      simp [Script.events, setProgress, emit]
    | await step x =>
      have hstep : ok = outcome step := hok step (by rw [hscript]; rfl)
      obtain rfl := Option.some.inj h
      by_cases hexits : s.progress x = .idle ∧ outcome step = true
      · simp [Script.events, emit, hstep, hexits]
      · simp [Script.events, hstep, hexits]

/-- **What a runner does that is left alone until it is done.** -/
theorem trace_of_run_alone {ms : List (Party × Bool)} (hfollows : RunWhere step (Follows outcome) s ms)
    (h : run step s ms = some t) (hdone : t.script .runner = .done) :
    t.trace = s.trace ++ s.remaining outcome := by
  have hsame := run_invariant_where
    (P := fun s' => s'.trace ++ s'.remaining outcome = s.trace ++ s.remaining outcome)
    (fun hf hm hs => (remaining_step hf hm).trans hs) hfollows h rfl
  rw [remaining, hdone, Script.events, List.append_nil] at hsame
  exact hsame

/-! ## Cleanups run once -/

/-- What a step does to the cleanups. -/
theorem progress_step (h : s.step m = some s') :
    s'.progress = s.progress ∧ (s'.trace = s.trace ∨
      ∃ x, s'.trace = s.trace ++ [.started x] ∨ s'.trace = s.trace ++ [.exited x]) ∨
    (∃ x, s.progress x = .idle ∧ s'.progress = Function.update s.progress x (.running m.1) ∧
      s'.trace = s.trace ++ [.begun x]) ∨
    ∃ x, s'.progress = Function.update s.progress x .completed ∧ s'.trace = s.trace ++ [.released x] := by
  obtain ⟨p, ok⟩ := m
  cases hscript : s.script p with
  | done => simp [step, hscript] at h
  | attempt | check =>
    simp only [Supervision.step, hscript, Option.some.injEq] at h
    subst h
    exact .inl ⟨rfl, .inl rfl⟩
  | start step x a b =>
    simp only [Supervision.step, hscript, Option.some.injEq] at h
    subst h
    cases ok
    · exact .inl ⟨rfl, .inl rfl⟩
    · exact .inl ⟨rfl, .inr ⟨x, .inl rfl⟩⟩
  | seq i next =>
    simp only [Supervision.step, hscript] at h
    cases i with
    | lock | request =>
      obtain ⟨-, h⟩ := Option.ite_none_right_eq_some.mp h
      obtain rfl := Option.some.inj h
      exact .inl ⟨rfl, .inl rfl⟩
    | unlock | arm | install | disarm =>
      obtain rfl := Option.some.inj h
      exact .inl ⟨rfl, .inl rfl⟩
    | take x =>
      obtain rfl := Option.some.inj h
      left
      split_ifs <;> exact ⟨rfl, .inl rfl⟩
    | cleanup x =>
      obtain rfl := Option.some.inj h
      by_cases hidle : s.progress x = .idle
      · rw [if_pos hidle]
        exact .inr (.inl ⟨x, hidle, rfl, rfl⟩)
      · rw [if_neg hidle]
        exact .inl ⟨rfl, .inl rfl⟩
    | cleaning x =>
      obtain rfl := Option.some.inj h
      exact .inr (.inr ⟨x, rfl, rfl⟩)
    | await step x =>
      obtain rfl := Option.some.inj h
      left
      split_ifs
      · exact ⟨rfl, .inr ⟨x, .inr rfl⟩⟩
      · exact ⟨rfl, .inl rfl⟩

/-- No cleanup has been begun twice, or before its first time. -/
def BegunOnce (s : Supervision ι ρ) : Prop :=
  ∀ x, s.trace.count (.begun x) ≤ if s.progress x = .idle then 0 else 1

theorem begunOnce_step (hs : s.BegunOnce) (h : s.step m = some s') : s'.BegunOnce := by
  intro y
  have hy := hs y
  obtain ⟨hprogress, htrace⟩ | ⟨x, hidle, hprogress, htrace⟩ | ⟨x, hprogress, htrace⟩ := progress_step h
  · obtain htrace | ⟨x, htrace | htrace⟩ := htrace <;>
      simpa [htrace, hprogress, List.count_singleton] using hy
  · by_cases hxy : y = x
    · subst hxy
      rw [if_pos hidle] at hy
      simp [htrace, hprogress, Nat.le_zero.mp hy]
    · simpa [htrace, hprogress, List.count_singleton, Function.update_of_ne hxy, Ne.symm hxy] using hy
  · by_cases hxy : y = x
    · subst hxy
      have hle : s.trace.count (.begun y) ≤ 1 := hy.trans (by split_ifs <;> omega)
      simpa [htrace, hprogress, List.count_singleton] using hle
    · simpa [htrace, hprogress, List.count_singleton, Function.update_of_ne hxy] using hy

/-- **No cleanup is begun twice.** -/
theorem count_begun_le {runner terminator : Script ι ρ} {moves : List (Party × Bool)}
    (h : run step (new runner terminator) moves = some t) (x : ρ) : t.trace.count (.begun x) ≤ 1 := by
  have honce := run_invariant (P := BegunOnce) (fun hm hs => begunOnce_step hs hm) h
    (fun y => by simp [new])
  exact (honce x).trans (by split_ifs <;> omega)

end Supervision

end Vhrn
