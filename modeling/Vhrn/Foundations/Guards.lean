import Vhrn.Foundations.Supervision

/-!
# What a gate guards

Two checks of scripts that can be made without running them, and what they give for every interleaving
of a runner with a terminator. A `Guard` names a resource. `Script.guarded` follows the script of the
runner through the stages of the resource: it is started under the gate after a check and put into its
slot before the gate is left, and its dependents are released after it. `Script.tearsDown` follows the
terminator: it takes the resource under the gate after it has asked for termination.

The stages are an invariant of the steps of both parties (`kept_step`). From it: at most one resource is
started after termination is asked for (`started_after_request`), no resource is left when the
terminator is done (`cleared_of_done`), and no dependent is released before it (`completed_of_begun`).
-/

namespace Vhrn

def Party.other : Party → Party
  | .runner => .terminator
  | .terminator => .runner

/-- How a resource is guarded. -/
structure Guard (ι ρ : Type) where
  resource : ρ
  /-- The runner cleans it up under the gate only. -/
  confined : Bool
  /-- It may end by itself. -/
  awaitable : Bool
  /-- What is released only after the resource. -/
  dependents : List ρ
  /-- What the runner has left to do where it releases a dependent while it owns the resource. -/
  early : List (Script ι ρ)
  resource_notMem : resource ∉ dependents

/-- What a party knows of the resource. -/
inductive Stage
  | fresh
  | bare
  | owned
  | taken
  | cleaning
  | awaited
  | gone
  deriving DecidableEq

/-- What is known where the runner is in its script. -/
structure Mode where
  armed : Bool
  held : Bool
  passed : Bool
  stage : Stage

/-- What is known where the terminator is in its script. -/
structure Teardown where
  asked : Bool
  held : Bool
  stage : Stage

variable {ι ρ : Type} [DecidableEq ι] [DecidableEq ρ]

namespace Guard

variable (g : Guard ι ρ)

/-- What is known after an instruction of the runner, if it is allowed. -/
def after (m : Mode) (next : Script ι ρ) : Instr ι ρ → Option Mode
  | .lock => if m.held then none else some { m with held := true, passed := false }
  | .unlock =>
    if m.held ∧ m.stage ≠ .bare ∧ m.stage ≠ .taken ∧ ¬ (g.confined ∧ m.stage = .cleaning) then
      some { m with held := false, passed := false }
    else none
  | .arm => if m.armed then none else some { m with armed := true }
  | .request => none
  | .install x =>
    if x ≠ g.resource then some m
    else if m.stage = .bare then some { m with stage := .owned } else none
  | .take x =>
    if x ∈ g.dependents ∨ ¬ m.held then none
    else if x ≠ g.resource then some m
    else
      match m.stage with
      | .fresh => some m
      | .owned | .gone => some { m with stage := .gone }
      | _ => none
  | .disarm x =>
    if x ≠ g.resource ∨ m.stage = .fresh ∨ m.stage = .awaited ∨ m.stage = .gone then some m else none
  | .cleanup x =>
    if x = g.resource then
      if (g.confined → m.held) ∧ (m.stage = .owned ∨ m.stage = .taken ∨ m.stage = .gone) then
        some { m with stage := .gone }
      else none
    else if x ∈ g.dependents then
      if m.stage = .fresh ∨ m.stage = .gone ∨ m.stage = .owned ∧ next ∈ g.early then
        some { m with stage := .gone }
      else none
    else some m
  | .cleaning x =>
    if x ≠ g.resource then some m
    else if m.stage = .cleaning then some { m with stage := .gone } else none
  | .await _ x =>
    if x ≠ g.resource then some m
    else if g.awaitable ∧ m.stage = .owned then some { m with stage := .awaited } else none

/-- What is known after an instruction of the terminator, if it is allowed. -/
def afterTeardown (u : Teardown) : Instr ι ρ → Option Teardown
  | .request => if u.asked then none else some { u with asked := true }
  | .lock => if u.asked ∧ ¬ u.held then some { u with held := true } else none
  | .unlock =>
    if u.held ∧ u.stage ≠ .taken ∧ u.stage ≠ .cleaning then some { u with held := false } else none
  | .take x =>
    if ¬ u.held ∨ x ∈ g.dependents ∧ u.stage ≠ .gone then none
    else if x ≠ g.resource then some u
    else if u.stage = .fresh then some { u with stage := .gone } else none
  | .cleanup x =>
    if ¬ u.held ∨ x ∈ g.dependents ∧ u.stage ≠ .gone then none
    else if x ≠ g.resource then some u
    else if u.stage = .taken then some { u with stage := .gone } else none
  | .cleaning x =>
    if x ≠ g.resource then some u
    else if u.stage = .cleaning then some { u with stage := .gone } else none
  | _ => none

end Guard

namespace Script

/-- The runner keeps to the guard. -/
def guarded (g : Guard ι ρ) : Mode → Script ι ρ → Bool
  | m, .done => !m.held
  | m, .seq i next =>
    match g.after m next i with
    | some m' => next.guarded g m'
    | none => false
  | m, .attempt _ succeeded failed => succeeded.guarded g m && failed.guarded g m
  | m, .check clear requested =>
    m.held && clear.guarded g { m with passed := true } &&
      requested.guarded g { m with passed := false }
  | m, .start _ x started failed =>
    (!m.armed || m.passed) && failed.guarded g { m with passed := false } &&
      if x = g.resource then
        m.passed && m.stage == .fresh && started.guarded g { m with passed := false, stage := .bare }
      else started.guarded g { m with passed := false }

/-- What a script may still start once termination has been asked for: what it comes to without a check. -/
def unchecked : Script ι ρ → List ρ
  | .done => []
  | .seq _ next => next.unchecked
  | .attempt _ succeeded failed => succeeded.unchecked ++ failed.unchecked
  | .check _ requested => requested.unchecked
  | .start _ x started failed => x :: (started.unchecked ++ failed.unchecked)

/-- The terminator tears the resource down. -/
def tearsDown (g : Guard ι ρ) : Teardown → Script ι ρ → Bool
  | u, .done => u.stage == .gone && !u.held
  | u, .seq i next =>
    match g.afterTeardown u i with
    | some u' => next.tearsDown g u'
    | none => false
  | _, _ => false

end Script

/-- A party may go on with a script: nobody comes to the cleanup of the resource while the other party is
in it, unless the gate forbids that anyway; the runner releases a dependent early only when the resource
is gone; and waiting for the resource does not fail. -/
def Guard.Allows (g : Guard ι ρ) (s : Supervision ι ρ) (move : Party × Bool) : Script ι ρ → Prop
  | .seq (.take x) _ => x = g.resource → g.confined = false → s.progress x ≠ .running move.1.other
  | .seq (.cleanup x) next =>
    (x = g.resource → g.confined = false → s.progress x ≠ .running move.1.other) ∧
      (move.1 = .runner → x ∈ g.dependents → next ∈ g.early → s.progress g.resource = .completed)
  | .seq (.await _ x) _ =>
    x = g.resource → g.awaitable = true → s.progress x = .idle → move.2 = true
  | _ => True

instance (g : Guard ι ρ) (s : Supervision ι ρ) (move : Party × Bool) :
    ∀ script, Decidable (g.Allows s move script)
  | .seq (.take x) _ => inferInstanceAs
    (Decidable (x = g.resource → g.confined = false → s.progress x ≠ .running move.1.other))
  | .seq (.cleanup x) next => inferInstanceAs (Decidable
    ((x = g.resource → g.confined = false → s.progress x ≠ .running move.1.other) ∧
      (move.1 = .runner → x ∈ g.dependents → next ∈ g.early → s.progress g.resource = .completed)))
  | .seq (.await _ x) _ => inferInstanceAs
    (Decidable (x = g.resource → g.awaitable = true → s.progress x = .idle → move.2 = true))
  | .seq .lock _ | .seq .unlock _ | .seq .arm _ | .seq .request _ | .seq (.install _) _
  | .seq (.disarm _) _ | .seq (.cleaning _) _ | .done | .attempt .. | .check .. | .start .. =>
    .isTrue trivial

/-- A step of a party that its guard allows. -/
def Guard.Respected (g : Guard ι ρ) (s : Supervision ι ρ) (move : Party × Bool) : Prop :=
  g.Allows s move (s.script move.1)

instance (g : Guard ι ρ) (s : Supervision ι ρ) (move : Party × Bool) : Decidable (g.Respected s move) :=
  inferInstanceAs (Decidable (g.Allows s move (s.script move.1)))

/-- What of a state bears on the resource. -/
structure View where
  armed : Bool
  requested : Bool
  gate : Option Party
  slot : Bool
  progress : Progress
  started : Prop
  exited : Prop
  /-- A dependent has begun to be released. -/
  begun : Prop

/-- The resource has ended, if it was started. -/
def View.Over (v : View) : Prop := v.started → v.exited ∨ v.progress = .completed

/-- What holds where the two parties are in their scripts. -/
structure Known (g : Guard ι ρ) (v : View) (m : Mode) (u : Teardown) : Prop where
  armed : v.armed = m.armed
  asked : v.requested = u.asked
  armed_of_asked : u.asked → m.armed
  gate_runner : m.held ↔ v.gate = some .runner
  gate_terminator : u.held ↔ v.gate = some .terminator
  held_of_passed : m.passed → m.held
  held_of_bare : m.stage = .bare ∨ m.stage = .taken ∨ g.confined ∧ m.stage = .cleaning → m.held
  held_of_taking : u.stage = .taken ∨ u.stage = .cleaning → u.held
  asked_of_held : u.held ∨ u.stage ≠ .fresh → u.asked
  late : u.stage ≠ .fresh → m.passed = false ∧ m.stage ≠ .bare ∧ v.slot = false
  cleaning : m.stage = .cleaning ↔ v.progress = .running .runner
  running : u.stage = .cleaning ↔ v.progress = .running .terminator
  fresh : m.stage = .fresh → ¬ v.started ∧ v.slot = false
  owned : m.stage = .owned → v.slot ∨ v.progress ≠ .idle ∨ u.stage = .taken
  awaited : m.stage = .awaited → v.exited ∨ v.progress ≠ .idle
  gone : m.stage = .gone ∨ u.stage = .gone → v.Over
  deferred : v.begun → (m.stage ≠ .fresh ∨ u.stage = .gone) ∧ v.Over
  unended : g.awaitable = false → ¬ v.exited

namespace Known

variable {g : Guard ι ρ} {v : View} {m : Mode} {u : Teardown}

omit [DecidableEq ι] [DecidableEq ρ]

/-- A cleanup that was begun and that no party is in has ended. -/
theorem completed_of_ne_idle (h : Known g v m u) (hidle : v.progress ≠ .idle)
    (hrunner : m.stage ≠ .cleaning) (hterminator : u.stage ≠ .cleaning) : v.progress = .completed := by
  cases hprogress : v.progress with
  | idle => exact absurd hprogress hidle
  | completed => rfl
  | running p =>
    cases p with
    | runner => exact absurd (h.cleaning.mpr hprogress) hrunner
    | terminator => exact absurd (h.running.mpr hprogress) hterminator

/-- The gate is held by one party. -/
theorem not_held (h : Known g v m u) (hheld : m.held) : u.held = false := by
  cases hu : u.held with
  | false => rfl
  | true => exact absurd ((h.gate_runner.mp hheld).symm.trans (h.gate_terminator.mp hu)) (by decide)

theorem not_held_of_terminator (h : Known g v m u) (hheld : u.held) : m.held = false :=
  Bool.eq_false_iff.mpr fun hm => absurd hheld (by simp [h.not_held hm])

/-! ### The steps of the runner -/

theorem lock (h : Known g v m u) (hgate : v.gate = none) :
    Known g { v with gate := some .runner } { m with held := true, passed := false } u := by
  obtain ⟨⟩ := h
  constructor <;> grind -ring -linarith [View.Over]

theorem unlock (h : Known g v m u) (hheld : m.held) (hbare : m.stage ≠ .bare) (htaken : m.stage ≠ .taken)
    (hcleaning : ¬ (g.confined ∧ m.stage = .cleaning)) :
    Known g { v with gate := none } { m with held := false, passed := false } u := by
  obtain ⟨⟩ := h
  constructor <;> grind -ring -linarith [View.Over]

theorem arm (h : Known g v m u) : Known g { v with armed := true } { m with armed := true } u := by
  obtain ⟨⟩ := h
  constructor <;> grind -ring -linarith [View.Over]

theorem install (h : Known g v m u) (hbare : m.stage = .bare) :
    Known g { v with slot := true } { m with stage := .owned } u := by
  obtain ⟨⟩ := h
  constructor <;> grind -ring -linarith [View.Over]

theorem take (h : Known g v m u) (hheld : m.held) (hstage : m.stage = .owned ∨ m.stage = .gone)
    (hslot : v.slot = true) : Known g { v with slot := false } { m with stage := .taken } u := by
  obtain ⟨⟩ := h
  constructor <;> grind -ring -linarith [View.Over]

/-- The cleanup was taken by the terminator, which has left the gate since. -/
theorem take_empty (h : Known g v m u) (hheld : m.held) (hstage : m.stage = .owned ∨ m.stage = .gone)
    (hslot : v.slot = false) : Known g v { m with stage := .gone } u := by
  have hu := h.not_held hheld
  have hcompleted := h.completed_of_ne_idle
  obtain ⟨⟩ := h
  constructor <;> grind -ring -linarith [View.Over]

theorem disarm (h : Known g v m u)
    (hstage : m.stage = .fresh ∨ m.stage = .awaited ∨ m.stage = .gone) :
    Known g { v with slot := false } m u := by
  obtain ⟨⟩ := h
  constructor <;> grind -ring -linarith [View.Over]

theorem cleanup (h : Known g v m u) (hconfined : g.confined → m.held) (hidle : v.progress = .idle) :
    Known g { v with progress := .running .runner } { m with stage := .cleaning } u := by
  obtain ⟨⟩ := h
  constructor <;> grind -ring -linarith [View.Over]

theorem cleanup_begun (h : Known g v m u) (hconfined : g.confined → m.held)
    (hstage : m.stage = .owned ∨ m.stage = .taken ∨ m.stage = .gone) (hidle : v.progress ≠ .idle)
    (hrunning : g.confined = false → v.progress ≠ .running .terminator) :
    Known g v { m with stage := .gone } u := by
  have hu := h.not_held
  have hcompleted := h.completed_of_ne_idle hidle
  obtain ⟨⟩ := h
  constructor <;> grind -ring -linarith [View.Over]

theorem cleaned (h : Known g v m u) (hstage : m.stage = .cleaning) :
    Known g { v with progress := .completed } { m with stage := .gone } u := by
  obtain ⟨⟩ := h
  constructor <;> grind -ring -linarith [View.Over]

theorem await (h : Known g v m u) (hawaitable : g.awaitable) (hstage : m.stage = .owned) :
    Known g { v with exited := True } { m with stage := .awaited } u := by
  obtain ⟨⟩ := h
  constructor <;> grind -ring -linarith [View.Over]

theorem await_begun (h : Known g v m u) (hstage : m.stage = .owned) (hidle : v.progress ≠ .idle) :
    Known g v { m with stage := .awaited } u := by
  obtain ⟨⟩ := h
  constructor <;> grind -ring -linarith [View.Over]

/-- A dependent is released. -/
theorem release (h : Known g v m u) (begun : Prop) (hstage : m.stage = .fresh ∨ m.stage = .gone ∨
      m.stage = .owned ∧ v.progress = .completed) :
    Known g { v with begun } { m with stage := .gone } u := by
  obtain ⟨⟩ := h
  constructor <;> grind -ring -linarith [View.Over]

theorem pass (h : Known g v m u) (hheld : m.held) (hrequested : v.requested = false) :
    Known g v { m with passed := true } u := by
  obtain ⟨⟩ := h
  constructor <;> grind -ring -linarith [View.Over]

theorem forget (h : Known g v m u) : Known g v { m with passed := false } u := by
  obtain ⟨⟩ := h
  constructor <;> grind -ring -linarith [View.Over]

theorem start (h : Known g v m u) (hpassed : m.passed) (hstage : m.stage = .fresh) :
    Known g { v with started := True } { m with passed := false, stage := .bare } u := by
  obtain ⟨⟩ := h
  constructor <;> grind -ring -linarith [View.Over]

/-! ### The steps of the terminator -/

theorem request (h : Known g v m u) (harmed : v.armed) :
    Known g { v with requested := true } m { u with asked := true } := by
  obtain ⟨⟩ := h
  constructor <;> grind -ring -linarith [View.Over]

theorem enter (h : Known g v m u) (hasked : u.asked) (hgate : v.gate = none) :
    Known g { v with gate := some .terminator } m { u with held := true } := by
  obtain ⟨⟩ := h
  constructor <;> grind -ring -linarith [View.Over]

theorem exit (h : Known g v m u) (hheld : u.held) (htaken : u.stage ≠ .taken)
    (hcleaning : u.stage ≠ .cleaning) :
    Known g { v with gate := none } m { u with held := false } := by
  obtain ⟨⟩ := h
  constructor <;> grind -ring -linarith [View.Over]

theorem seize (h : Known g v m u) (hheld : u.held) (hstage : u.stage = .fresh) (hslot : v.slot = true) :
    Known g { v with slot := false } m { u with stage := .taken } := by
  have hm := h.not_held_of_terminator hheld
  obtain ⟨⟩ := h
  constructor <;> grind -ring -linarith [View.Over]

/-- What is in no slot while the terminator has the gate was not started or is over. -/
theorem over_of_slot_empty (h : Known g v m u) (hheld : u.held) (hstage : u.stage = .fresh)
    (hslot : v.slot = false) (hrunning : g.confined = false → v.progress ≠ .running .runner) :
    v.Over := by
  have hm := h.not_held_of_terminator hheld
  have hcompleted := h.completed_of_ne_idle
  intro hstarted
  cases hknown : m.stage with
  | fresh => exact absurd hstarted (h.fresh hknown).1
  | bare | taken => simp [h.held_of_bare (by simp [hknown])] at hm
  | gone => exact h.gone (.inl hknown) hstarted
  | owned =>
    right
    obtain hpresent | hidle | htaken := h.owned hknown
    · simp [hslot] at hpresent
    · exact hcompleted hidle (by simp [hknown]) (by simp [hstage])
    · simp [hstage] at htaken
  | awaited => exact (h.awaited hknown).imp_right fun hidle =>
      hcompleted hidle (by simp [hknown]) (by simp [hstage])
  | cleaning =>
    cases hconfined : g.confined with
    | false => exact absurd (h.cleaning.mp hknown) (hrunning hconfined)
    | true => simp [h.held_of_bare (by simp [hknown, hconfined])] at hm

theorem seize_empty (h : Known g v m u) (hheld : u.held) (hstage : u.stage = .fresh)
    (hslot : v.slot = false) (hrunning : g.confined = false → v.progress ≠ .running .runner) :
    Known g v m { u with stage := .gone } := by
  have hm := h.not_held_of_terminator hheld
  have hover := h.over_of_slot_empty hheld hstage hslot hrunning
  obtain ⟨⟩ := h
  constructor <;> grind -ring -linarith

theorem teardown (h : Known g v m u) (hstage : u.stage = .taken) (hidle : v.progress = .idle) :
    Known g { v with progress := .running .terminator } m { u with stage := .cleaning } := by
  obtain ⟨⟩ := h
  constructor <;> grind -ring -linarith [View.Over]

theorem teardown_begun (h : Known g v m u) (hheld : u.held) (hstage : u.stage = .taken)
    (hidle : v.progress ≠ .idle) (hrunning : g.confined = false → v.progress ≠ .running .runner) :
    Known g v m { u with stage := .gone } := by
  have hm := h.not_held_of_terminator hheld
  have hcompleted := h.completed_of_ne_idle hidle
  obtain ⟨⟩ := h
  constructor <;> grind -ring -linarith [View.Over]

theorem torn (h : Known g v m u) (hstage : u.stage = .cleaning) :
    Known g { v with progress := .completed } m { u with stage := .gone } := by
  obtain ⟨⟩ := h
  constructor <;> grind -ring -linarith [View.Over]

theorem release_after (h : Known g v m u) (begun : Prop) (hstage : u.stage = .gone) :
    Known g { v with begun } m u := by
  obtain ⟨⟩ := h
  constructor <;> grind -ring -linarith [View.Over]

end Known

/-! ## The scripts keep to the guard -/

namespace Supervision

def view (g : Guard ι ρ) (s : Supervision ι ρ) : View where
  armed := s.armed
  requested := s.requested
  gate := s.gate
  slot := s.slot g.resource
  progress := s.progress g.resource
  started := .started g.resource ∈ s.trace
  exited := .exited g.resource ∈ s.trace
  begun := ∃ x ∈ g.dependents, .begun x ∈ s.trace

/-- Both scripts guard the resource from where they are. -/
structure Kept (g : Guard ι ρ) (s : Supervision ι ρ) (m : Mode) (u : Teardown) : Prop where
  runner : (s.script .runner).guarded g m
  terminator : (s.script .terminator).tearsDown g u
  known : Known g (s.view g) m u

variable {g : Guard ι ρ} {s s' : Supervision ι ρ} {m m' : Mode} {u u' : Teardown} {p : Party}
  {i : Instr ι ρ} {next : Script ι ρ} {ok : Bool} {x : ρ}

section

omit [DecidableEq ι]

omit [DecidableEq ρ] in
@[simp] theorem view_goto : (s.goto p next).view g = s.view g := rfl

theorem view_setSlot (b : Bool) (hx : x = g.resource) :
    (s.setSlot x b).view g = { s.view g with slot := b } := by
  subst hx
  simp [view, setSlot]

theorem view_setSlot_of_ne (b : Bool) (hx : x ≠ g.resource) : (s.setSlot x b).view g = s.view g := by
  simp [view, setSlot, Function.update_of_ne hx.symm]

theorem view_setProgress (b : Progress) (hx : x = g.resource) :
    (s.setProgress x b).view g = { s.view g with progress := b } := by
  subst hx
  simp [view, setProgress]

theorem view_setProgress_of_ne (b : Progress) (hx : x ≠ g.resource) :
    (s.setProgress x b).view g = s.view g := by
  simp [view, setProgress, Function.update_of_ne hx.symm]

omit [DecidableEq ρ] in
theorem view_started (hx : x = g.resource) :
    (s.emit (.started x)).view g = { s.view g with started := True } := by
  subst hx
  simp [view, emit]

omit [DecidableEq ρ] in
theorem view_started_of_ne (hx : x ≠ g.resource) : (s.emit (.started x)).view g = s.view g := by
  simp [view, emit, hx.symm]

omit [DecidableEq ρ] in
theorem view_exited (hx : x = g.resource) :
    (s.emit (.exited x)).view g = { s.view g with exited := True } := by
  subst hx
  simp [view, emit]

omit [DecidableEq ρ] in
theorem view_exited_of_ne (hx : x ≠ g.resource) : (s.emit (.exited x)).view g = s.view g := by
  simp [view, emit, hx.symm]

omit [DecidableEq ρ] in
@[simp] theorem view_released : (s.emit (.released x)).view g = s.view g := by
  simp [view, emit]

omit [DecidableEq ρ] in
theorem view_begun (x : ρ) : (s.emit (.begun x)).view g =
    { s.view g with begun := (s.view g).begun ∨ x ∈ g.dependents } := by
  have hbegun : (∃ y ∈ g.dependents, .begun y ∈ s.trace ∨ y = x) ↔
      (∃ y ∈ g.dependents, .begun y ∈ s.trace) ∨ x ∈ g.dependents := by
    simp only [and_or_left, exists_or, exists_eq_right]
  simp [view, emit, hbegun]

omit [DecidableEq ρ] in
theorem view_begun_of_notMem (hx : x ∉ g.dependents) : (s.emit (.begun x)).view g = s.view g := by
  simp [view_begun, hx]

end

theorem kept_goto {n : Script ι ρ} (hs : s.Kept g m u) (hnext : n.guarded g m')
    (hknown : Known g (s'.view g) m' u) (hscript : s'.script = (s.goto .runner n).script) :
    s'.Kept g m' u where
  runner := by rw [hscript, script_goto_self]; exact hnext
  terminator := by
    rw [hscript, script_goto_of_ne (by decide)]
    exact hs.terminator
  known := hknown

theorem kept_goto_terminator {n : Script ι ρ} (hs : s.Kept g m u) (hnext : n.tearsDown g u')
    (hknown : Known g (s'.view g) m u') (hscript : s'.script = (s.goto .terminator n).script) :
    s'.Kept g m u' where
  runner := by
    rw [hscript, script_goto_of_ne (by decide)]
    exact hs.runner
  terminator := by rw [hscript, script_goto_self]; exact hnext
  known := hknown

/-- What is known after an allowed instruction. -/
theorem exists_after (h : (Script.seq i next).guarded g m) :
    ∃ m', g.after m next i = some m' ∧ next.guarded g m' := by
  rw [Script.guarded] at h
  cases hafter : g.after m next i with
  | none => simp [hafter] at h
  | some m' => exact ⟨m', rfl, by simpa [hafter] using h⟩

omit [DecidableEq ι] in
theorem exists_afterTeardown (h : (Script.seq i next).tearsDown g u) :
    ∃ u', g.afterTeardown u i = some u' ∧ next.tearsDown g u' := by
  rw [Script.tearsDown] at h
  cases hafter : g.afterTeardown u i with
  | none => simp [hafter] at h
  | some u' => exact ⟨u', rfl, by simpa [hafter] using h⟩

theorem guarded_seq (h : g.after m next i = some m') (hnext : next.guarded g m') :
    (Script.seq i next).guarded g m := by
  rw [Script.guarded, h]
  exact hnext

omit [DecidableEq ι] in
theorem tearsDown_seq (h : g.afterTeardown u i = some u') (hnext : next.tearsDown g u') :
    (Script.seq i next).tearsDown g u := by
  rw [Script.tearsDown, h]
  exact hnext

theorem kept_take (hs : s.Kept g m u) (hscript : s.script .runner = .seq (.take x) next)
    (h : s.perform .runner next ok (.take x) = some s') : ∃ m', s'.Kept g m' u := by
  obtain ⟨m', hafter, hnext⟩ := exists_after (hscript ▸ hs.runner)
  obtain rfl := Option.some.inj h
  simp only [Guard.after] at hafter
  obtain ⟨hallowed, hafter⟩ := Option.ite_none_left_eq_some.mp hafter
  obtain ⟨hdependent, hheld⟩ := not_or.mp hallowed
  rw [not_not] at hheld
  by_cases hx : x = g.resource
  · subst hx
    rw [if_neg (not_not.mpr rfl)] at hafter
    by_cases hslot : s.slot g.resource
    · -- the runner goes on to the cleanup, which nobody else can take any more
      rw [if_pos hslot]
      have hstage : m.stage = .owned ∨ m.stage = .gone := by
        cases hm : m.stage with
        | fresh => exact absurd (hs.known.fresh hm).2 (by simp [view, hslot])
        | _ => simp_all
      obtain rfl : { m with stage := .gone } = m' := by
        obtain hm | hm := hstage <;> simpa [hm] using hafter
      refine ⟨{ m with stage := .taken }, kept_goto hs (n := .seq (.cleanup g.resource) next) ?_ ?_ rfl⟩
      · exact guarded_seq (by simp [Guard.after, hheld]) hnext
      · rw [view_setSlot _ rfl, view_goto]
        exact hs.known.take hheld hstage hslot
    · rw [if_neg hslot]
      refine ⟨m', kept_goto hs hnext ?_ rfl⟩
      rw [view_goto]
      rw [Bool.not_eq_true] at hslot
      cases hm : m.stage with
      | fresh => simp only [hm, Option.some.injEq] at hafter; exact hafter ▸ hs.known
      | owned | gone =>
        simp only [hm, Option.some.injEq] at hafter
        exact hafter ▸ hs.known.take_empty hheld (by simp [hm]) hslot
      | _ => simp [hm] at hafter
  · rw [if_pos hx] at hafter
    obtain rfl := Option.some.inj hafter
    refine ⟨m, ?_⟩
    by_cases hslot : s.slot x
    · rw [if_pos hslot]
      refine kept_goto hs (n := .seq (.cleanup x) next) ?_ ?_ rfl
      · exact guarded_seq (by simp [Guard.after, hx, hdependent]) hnext
      · rw [view_setSlot_of_ne _ hx]
        exact hs.known
    · rw [if_neg hslot]
      exact kept_goto hs hnext hs.known rfl

theorem kept_cleanup (hs : s.Kept g m u) (hr : g.Respected s (.runner, ok))
    (hscript : s.script .runner = .seq (.cleanup x) next)
    (h : s.perform .runner next ok (.cleanup x) = some s') : ∃ m', s'.Kept g m' u := by
  obtain ⟨m', hafter, hnext⟩ := exists_after (hscript ▸ hs.runner)
  simp only [Guard.Respected, Guard.Allows, hscript] at hr
  obtain rfl := Option.some.inj h
  simp only [Guard.after] at hafter
  by_cases hx : x = g.resource
  · subst hx
    rw [if_pos rfl] at hafter
    obtain ⟨⟨hconfined, hstage⟩, hm'⟩ := Option.ite_none_right_eq_some.mp hafter
    obtain rfl := Option.some.inj hm'
    by_cases hidle : s.progress g.resource = .idle
    · rw [if_pos hidle]
      refine ⟨{ m with stage := .cleaning },
        kept_goto hs (n := .seq (.cleaning g.resource) next) ?_ ?_ rfl⟩
      · exact guarded_seq (by simp [Guard.after]) hnext
      · rw [view_begun_of_notMem g.resource_notMem, view_setProgress _ rfl]
        exact hs.known.cleanup hconfined hidle
    · rw [if_neg hidle]
      exact ⟨_, kept_goto hs hnext (hs.known.cleanup_begun hconfined hstage hidle (hr.1 rfl)) rfl⟩
  · rw [if_neg hx] at hafter
    have hcleaning : (Script.seq (.cleaning x) next).guarded g m' :=
      guarded_seq (by simp [Guard.after, hx]) hnext
    by_cases hdependent : x ∈ g.dependents
    · rw [if_pos hdependent] at hafter
      obtain ⟨hstage, hm'⟩ := Option.ite_none_right_eq_some.mp hafter
      obtain rfl := Option.some.inj hm'
      have hready : m.stage = .fresh ∨ m.stage = .gone ∨
          m.stage = .owned ∧ (s.view g).progress = .completed := by
        obtain hstage | hstage | ⟨hstage, hearly⟩ := hstage
        · exact .inl hstage
        · exact .inr (.inl hstage)
        · exact .inr (.inr ⟨hstage, hr.2 trivial hdependent hearly⟩)
      refine ⟨{ m with stage := .gone }, ?_⟩
      by_cases hidle : s.progress x = .idle
      · rw [if_pos hidle]
        refine kept_goto hs hcleaning ?_ rfl
        rw [view_begun, view_setProgress_of_ne _ hx]
        exact hs.known.release _ hready
      · rw [if_neg hidle]
        exact kept_goto hs hnext (hs.known.release _ hready) rfl
    · rw [if_neg hdependent] at hafter
      obtain rfl := Option.some.inj hafter
      refine ⟨m, ?_⟩
      by_cases hidle : s.progress x = .idle
      · rw [if_pos hidle]
        refine kept_goto hs hcleaning ?_ rfl
        rw [view_begun_of_notMem hdependent, view_setProgress_of_ne _ hx]
        exact hs.known
      · rw [if_neg hidle]
        exact kept_goto hs hnext hs.known rfl

theorem kept_await {step : ι} (hs : s.Kept g m u) (hr : g.Respected s (.runner, ok))
    (hscript : s.script .runner = .seq (.await step x) next)
    (h : s.perform .runner next ok (.await step x) = some s') : ∃ m', s'.Kept g m' u := by
  obtain ⟨m', hafter, hnext⟩ := exists_after (hscript ▸ hs.runner)
  simp only [Guard.Respected, Guard.Allows, hscript] at hr
  obtain rfl := Option.some.inj h
  refine ⟨m', kept_goto hs hnext ?_ ?_⟩
  · simp only [Guard.after] at hafter
    by_cases hx : x = g.resource
    · subst hx
      rw [if_neg (not_not.mpr rfl)] at hafter
      obtain ⟨⟨hawaitable, hstage⟩, hm'⟩ := Option.ite_none_right_eq_some.mp hafter
      obtain rfl := Option.some.inj hm'
      by_cases hidle : s.progress g.resource = .idle
      · rw [if_pos ⟨hidle, hr rfl hawaitable hidle⟩, view_exited rfl]
        exact hs.known.await hawaitable hstage
      · rw [if_neg fun h => hidle h.1]
        exact hs.known.await_begun hstage hidle
    · rw [if_pos hx] at hafter
      obtain rfl := Option.some.inj hafter
      split_ifs
      · rw [view_exited_of_ne hx]
        exact hs.known
      · exact hs.known
  · split_ifs <;> rfl

/-- **Every instruction of the runner keeps the guard.** -/
theorem kept_runner (hs : s.Kept g m u) (hr : g.Respected s (.runner, ok))
    (hscript : s.script .runner = .seq i next) (h : s.perform .runner next ok i = some s') :
    ∃ m', s'.Kept g m' u := by
  obtain ⟨m', hafter, hnext⟩ := exists_after (hscript ▸ hs.runner)
  cases i with
  | take x => exact kept_take hs hscript h
  | cleanup x => exact kept_cleanup hs hr hscript h
  | await step x => exact kept_await hs hr hscript h
  | request => simp [Guard.after] at hafter
  | lock =>
    obtain ⟨hgate, h⟩ := Option.ite_none_right_eq_some.mp h
    obtain rfl := Option.some.inj h
    obtain ⟨-, hm'⟩ := Option.ite_none_left_eq_some.mp hafter
    exact ⟨m', kept_goto hs hnext (Option.some.inj hm' ▸ hs.known.lock hgate) rfl⟩
  | unlock =>
    obtain rfl := Option.some.inj h
    obtain ⟨⟨hheld, hbare, htaken, hcleaning⟩, hm'⟩ := Option.ite_none_right_eq_some.mp hafter
    exact ⟨m', kept_goto hs hnext
      (Option.some.inj hm' ▸ hs.known.unlock hheld hbare htaken hcleaning) rfl⟩
  | arm =>
    obtain rfl := Option.some.inj h
    obtain ⟨-, hm'⟩ := Option.ite_none_left_eq_some.mp hafter
    exact ⟨m', kept_goto hs hnext (Option.some.inj hm' ▸ hs.known.arm) rfl⟩
  | install x =>
    obtain rfl := Option.some.inj h
    refine ⟨m', kept_goto hs hnext ?_ rfl⟩
    simp only [Guard.after] at hafter
    by_cases hx : x = g.resource
    · rw [if_neg (not_not.mpr hx)] at hafter
      obtain ⟨hbare, hm'⟩ := Option.ite_none_right_eq_some.mp hafter
      obtain rfl := Option.some.inj hm'
      rw [view_setSlot _ hx]
      exact hs.known.install hbare
    · rw [if_pos hx] at hafter
      obtain rfl := Option.some.inj hafter
      rw [view_setSlot_of_ne _ hx]
      exact hs.known
  | disarm x =>
    obtain rfl := Option.some.inj h
    obtain ⟨hstage, hm'⟩ := Option.ite_none_right_eq_some.mp hafter
    obtain rfl := Option.some.inj hm'
    refine ⟨m, kept_goto hs hnext ?_ rfl⟩
    by_cases hx : x = g.resource
    · rw [view_setSlot _ hx]
      exact hs.known.disarm (hstage.resolve_left (not_not.mpr hx))
    · rw [view_setSlot_of_ne _ hx]
      exact hs.known
  | cleaning x =>
    obtain rfl := Option.some.inj h
    refine ⟨m', kept_goto hs hnext ?_ rfl⟩
    rw [view_released]
    simp only [Guard.after] at hafter
    by_cases hx : x = g.resource
    · rw [if_neg (not_not.mpr hx)] at hafter
      obtain ⟨hstage, hm'⟩ := Option.ite_none_right_eq_some.mp hafter
      obtain rfl := Option.some.inj hm'
      rw [view_setProgress _ hx]
      exact hs.known.cleaned hstage
    · rw [if_pos hx] at hafter
      obtain rfl := Option.some.inj hafter
      rw [view_setProgress_of_ne _ hx]
      exact hs.known

theorem kept_seize (hs : s.Kept g m u) (hr : g.Respected s (.terminator, ok))
    (hscript : s.script .terminator = .seq (.take x) next)
    (h : s.perform .terminator next ok (.take x) = some s') : ∃ u', s'.Kept g m u' := by
  obtain ⟨u', hafter, hnext⟩ := exists_afterTeardown (hscript ▸ hs.terminator)
  simp only [Guard.Respected, Guard.Allows, hscript] at hr
  obtain rfl := Option.some.inj h
  simp only [Guard.afterTeardown] at hafter
  obtain ⟨hallowed, hafter⟩ := Option.ite_none_left_eq_some.mp hafter
  obtain ⟨hheld, hdependent⟩ := not_or.mp hallowed
  rw [not_not] at hheld
  by_cases hx : x = g.resource
  · subst hx
    rw [if_neg (not_not.mpr rfl)] at hafter
    obtain ⟨hstage, hu'⟩ := Option.ite_none_right_eq_some.mp hafter
    obtain rfl := Option.some.inj hu'
    by_cases hslot : s.slot g.resource
    · rw [if_pos hslot]
      refine ⟨{ u with stage := .taken },
        kept_goto_terminator hs (n := .seq (.cleanup g.resource) next) ?_ ?_ rfl⟩
      · exact tearsDown_seq (by simp [Guard.afterTeardown, hheld, g.resource_notMem]) hnext
      · rw [view_setSlot _ rfl]
        exact hs.known.seize hheld hstage hslot
    · rw [if_neg hslot]
      exact ⟨_, kept_goto_terminator hs hnext (hs.known.seize_empty hheld hstage
        (Bool.not_eq_true _ ▸ hslot) (hr rfl)) rfl⟩
  · rw [if_pos hx] at hafter
    obtain rfl := Option.some.inj hafter
    refine ⟨u, ?_⟩
    by_cases hslot : s.slot x
    · rw [if_pos hslot]
      refine kept_goto_terminator hs (n := .seq (.cleanup x) next) ?_ ?_ rfl
      · exact tearsDown_seq (by simp [Guard.afterTeardown, hheld, hdependent, hx]) hnext
      · rw [view_setSlot_of_ne _ hx]
        exact hs.known
    · rw [if_neg hslot]
      exact kept_goto_terminator hs hnext hs.known rfl

theorem kept_teardown (hs : s.Kept g m u) (hr : g.Respected s (.terminator, ok))
    (hscript : s.script .terminator = .seq (.cleanup x) next)
    (h : s.perform .terminator next ok (.cleanup x) = some s') : ∃ u', s'.Kept g m u' := by
  obtain ⟨u', hafter, hnext⟩ := exists_afterTeardown (hscript ▸ hs.terminator)
  simp only [Guard.Respected, Guard.Allows, hscript] at hr
  obtain rfl := Option.some.inj h
  simp only [Guard.afterTeardown] at hafter
  obtain ⟨hallowed, hafter⟩ := Option.ite_none_left_eq_some.mp hafter
  obtain ⟨hheld, hdependent⟩ := not_or.mp hallowed
  rw [not_not] at hheld
  by_cases hx : x = g.resource
  · subst hx
    rw [if_neg (not_not.mpr rfl)] at hafter
    obtain ⟨hstage, hu'⟩ := Option.ite_none_right_eq_some.mp hafter
    obtain rfl := Option.some.inj hu'
    by_cases hidle : s.progress g.resource = .idle
    · rw [if_pos hidle]
      refine ⟨{ u with stage := .cleaning },
        kept_goto_terminator hs (n := .seq (.cleaning g.resource) next) ?_ ?_ rfl⟩
      · exact tearsDown_seq (by simp [Guard.afterTeardown]) hnext
      · rw [view_begun_of_notMem g.resource_notMem, view_setProgress _ rfl]
        exact hs.known.teardown hstage hidle
    · rw [if_neg hidle]
      exact ⟨_, kept_goto_terminator hs hnext
        (hs.known.teardown_begun hheld hstage hidle (hr.1 rfl)) rfl⟩
  · rw [if_pos hx] at hafter
    obtain rfl := Option.some.inj hafter
    refine ⟨u, ?_⟩
    by_cases hidle : s.progress x = .idle
    · rw [if_pos hidle]
      refine kept_goto_terminator hs (n := .seq (.cleaning x) next) ?_ ?_ rfl
      · exact tearsDown_seq (by simp [Guard.afterTeardown, hx]) hnext
      · by_cases hmem : x ∈ g.dependents
        · rw [view_begun, view_setProgress_of_ne _ hx]
          exact hs.known.release_after _ (not_not.mp fun hstage => hdependent ⟨hmem, hstage⟩)
        · rw [view_begun_of_notMem hmem, view_setProgress_of_ne _ hx]
          exact hs.known
    · rw [if_neg hidle]
      exact kept_goto_terminator hs hnext hs.known rfl

/-- **Every instruction of the terminator keeps the guard.** -/
theorem kept_terminator (hs : s.Kept g m u) (hr : g.Respected s (.terminator, ok))
    (hscript : s.script .terminator = .seq i next) (h : s.perform .terminator next ok i = some s') :
    ∃ u', s'.Kept g m u' := by
  obtain ⟨u', hafter, hnext⟩ := exists_afterTeardown (hscript ▸ hs.terminator)
  cases i with
  | take x => exact kept_seize hs hr hscript h
  | cleanup x => exact kept_teardown hs hr hscript h
  | request =>
    obtain ⟨harmed, h⟩ := Option.ite_none_right_eq_some.mp h
    obtain rfl := Option.some.inj h
    obtain ⟨-, hu'⟩ := Option.ite_none_left_eq_some.mp hafter
    exact ⟨u', kept_goto_terminator hs hnext (Option.some.inj hu' ▸ hs.known.request harmed) rfl⟩
  | lock =>
    obtain ⟨hgate, h⟩ := Option.ite_none_right_eq_some.mp h
    obtain rfl := Option.some.inj h
    obtain ⟨⟨hasked, -⟩, hu'⟩ := Option.ite_none_right_eq_some.mp hafter
    exact ⟨u', kept_goto_terminator hs hnext
      (Option.some.inj hu' ▸ hs.known.enter hasked hgate) rfl⟩
  | unlock =>
    obtain rfl := Option.some.inj h
    obtain ⟨⟨hheld, htaken, hcleaning⟩, hu'⟩ := Option.ite_none_right_eq_some.mp hafter
    exact ⟨u', kept_goto_terminator hs hnext
      (Option.some.inj hu' ▸ hs.known.exit hheld htaken hcleaning) rfl⟩
  | cleaning x =>
    obtain rfl := Option.some.inj h
    refine ⟨u', kept_goto_terminator hs hnext ?_ rfl⟩
    rw [view_released]
    simp only [Guard.afterTeardown] at hafter
    by_cases hx : x = g.resource
    · rw [if_neg (not_not.mpr hx)] at hafter
      obtain ⟨hstage, hu'⟩ := Option.ite_none_right_eq_some.mp hafter
      obtain rfl := Option.some.inj hu'
      rw [view_setProgress _ hx]
      exact hs.known.torn hstage
    · rw [if_pos hx] at hafter
      obtain rfl := Option.some.inj hafter
      rw [view_setProgress_of_ne _ hx]
      exact hs.known
  | arm | install x | disarm x | await step x => simp [Guard.afterTeardown] at hafter

/-- **Every step keeps the guard.** -/
theorem kept_step {move : Party × Bool} (hs : ∃ m u, s.Kept g m u) (hr : g.Respected s move)
    (h : s.step move = some s') : ∃ m u, s'.Kept g m u := by
  obtain ⟨m, u, hs⟩ := hs
  obtain ⟨p, ok⟩ := move
  cases p with
  | terminator =>
    have htearsDown := hs.terminator
    cases hscript : s.script .terminator with
    | done => simp [step, hscript] at h
    | seq i next =>
      simp only [Supervision.step, hscript] at h
      exact ⟨m, kept_terminator hs hr hscript h⟩
    | attempt | check | start => simp [hscript, Script.tearsDown] at htearsDown
  | runner =>
    have hguarded := hs.runner
    cases hscript : s.script .runner with
    | done => simp [step, hscript] at h
    | seq i next =>
      simp only [Supervision.step, hscript] at h
      obtain ⟨m', hm'⟩ := kept_runner hs hr hscript h
      exact ⟨m', u, hm'⟩
    | attempt step succeeded failed =>
      rw [hscript, Script.guarded, Bool.and_eq_true] at hguarded
      simp only [Supervision.step, hscript, Option.some.injEq] at h
      subst h
      refine ⟨m, u, kept_goto hs ?_ hs.known rfl⟩
      cases ok
      · exact hguarded.2
      · exact hguarded.1
    | check clear requested =>
      rw [hscript, Script.guarded, Bool.and_eq_true, Bool.and_eq_true] at hguarded
      obtain ⟨⟨hheld, hclear⟩, hrequested⟩ := hguarded
      simp only [Supervision.step, hscript, Option.some.injEq] at h
      subst h
      cases hasked : s.requested
      · exact ⟨_, u, kept_goto hs hclear (hs.known.pass hheld hasked) rfl⟩
      · exact ⟨_, u, kept_goto hs hrequested hs.known.forget rfl⟩
    | start step x started failed =>
      rw [hscript, Script.guarded, Bool.and_eq_true, Bool.and_eq_true] at hguarded
      obtain ⟨⟨-, hfailed⟩, hstarted⟩ := hguarded
      simp only [Supervision.step, hscript, Option.some.injEq] at h
      subst h
      cases ok
      · exact ⟨_, u, kept_goto hs hfailed hs.known.forget rfl⟩
      · by_cases hx : x = g.resource
        · rw [if_pos hx, Bool.and_eq_true, Bool.and_eq_true, beq_iff_eq] at hstarted
          obtain ⟨⟨hpassed, hstage⟩, hstarted⟩ := hstarted
          refine ⟨_, u, kept_goto hs hstarted ?_ rfl⟩
          rw [if_pos rfl, view_started hx]
          exact hs.known.start hpassed hstage
        · rw [if_neg hx] at hstarted
          refine ⟨_, u, kept_goto hs hstarted ?_ rfl⟩
          rw [if_pos rfl, view_started_of_ne hx]
          exact hs.known.forget

/-! ## Runs under a guard -/

/-- The scripts of two parties that have not begun. -/
theorem kept_new {runner terminator : Script ι ρ}
    (hrunner : runner.guarded g ⟨false, false, false, .fresh⟩)
    (hterminator : terminator.tearsDown g ⟨false, false, .fresh⟩) :
    ∃ m u, (new runner terminator).Kept g m u := by
  refine ⟨_, _, hrunner, hterminator, ?_⟩
  constructor <;> simp [view, new, View.Over]

/-- **When the terminator is done, the resource is over if it was started.** -/
theorem over_of_done (hs : ∃ m u, s.Kept g m u) (hdone : s.script .terminator = .done) :
    (s.view g).Over := by
  obtain ⟨m, u, hs⟩ := hs
  have hterminator := hs.terminator
  rw [hdone, Script.tearsDown, Bool.and_eq_true, beq_iff_eq] at hterminator
  exact hs.known.gone (.inr hterminator.1)

/-- **When a dependent has begun to be released, the resource is over if it was started.** -/
theorem over_of_begun (hs : ∃ m u, s.Kept g m u) (hx : x ∈ g.dependents) (hbegun : .begun x ∈ s.trace) :
    (s.view g).Over := by
  obtain ⟨m, u, hs⟩ := hs
  exact (hs.known.deferred ⟨x, hx, hbegun⟩).2

theorem completed_of_over (hs : ∃ m u, s.Kept g m u) (hawaitable : g.awaitable = false)
    (hover : (s.view g).Over) (hstarted : .started g.resource ∈ s.trace) :
    s.progress g.resource = .completed := by
  obtain ⟨m, u, hs⟩ := hs
  exact (hover hstarted).resolve_left (hs.known.unended hawaitable)

omit [DecidableEq ι] [DecidableEq ρ] in
/-- Nothing but the gate has to be kept to for a resource that is cleaned up under it only. -/
theorem respected_of_confined (hconfined : g.confined) (hawaitable : g.awaitable = false)
    (hdependents : g.dependents = []) (s : Supervision ι ρ) (move : Party × Bool) :
    g.Respected s move := by
  unfold Guard.Respected Guard.Allows
  split <;> simp [hconfined, hawaitable, hdependents]

/-! ## Starts after termination is asked for -/

theorem after_flags (h : g.after m next i = some m') :
    (m.armed → m'.armed) ∧ (m'.passed → m.passed) := by
  cases i <;> simp only [Guard.after] at h <;> grind -ring -linarith

/-- Without a check that was passed, a script starts nothing once termination is asked for. -/
theorem unchecked_eq_nil {script : Script ι ρ} (h : script.guarded g m) (harmed : m.armed)
    (hpassed : m.passed = false) : script.unchecked = [] := by
  induction script generalizing m with
  | done => rfl
  | seq i next ih =>
    obtain ⟨m', hafter, hnext⟩ := exists_after h
    obtain ⟨harmed', hpassed'⟩ := after_flags hafter
    exact ih hnext (harmed' harmed) (Bool.eq_false_iff.mpr fun h => by simp [hpassed' h] at hpassed)
  | attempt step a b iha ihb =>
    rw [Script.guarded, Bool.and_eq_true] at h
    rw [Script.unchecked, iha h.1 harmed hpassed, ihb h.2 harmed hpassed, List.append_nil]
  | check a b iha ihb =>
    rw [Script.guarded, Bool.and_eq_true] at h
    exact ihb h.2 harmed rfl
  | start step x a b => simp [Script.guarded, harmed, hpassed] at h

/-- The resources that are started, in their order. -/
def starts (s : Supervision ι ρ) : List ρ :=
  s.trace.filterMap fun
    | .started x => some x
    | _ => none

omit [DecidableEq ι] in
theorem starts_perform (h : s.perform p next ok i = some s') :
    s'.starts = s.starts ∧ (s'.script p).unchecked = next.unchecked ∧
      ∀ q, q ≠ p → s'.script q = s.script q := by
  cases i with
  | lock | request =>
    obtain ⟨-, h⟩ := Option.ite_none_right_eq_some.mp h
    obtain rfl := Option.some.inj h
    exact ⟨rfl, by simp, fun q hq => script_goto_of_ne hq⟩
  | unlock | arm | install x | disarm x | cleaning x =>
    obtain rfl := Option.some.inj h
    exact ⟨by simp [starts, emit, setProgress, setSlot],
      by simp [emit, setProgress, setSlot], fun q hq => script_goto_of_ne hq⟩
  | take x =>
    obtain rfl := Option.some.inj h
    split_ifs
    · exact ⟨rfl, by simp [setSlot, Script.unchecked], fun q hq => script_goto_of_ne hq⟩
    · exact ⟨rfl, by simp, fun q hq => script_goto_of_ne hq⟩
  | cleanup x =>
    obtain rfl := Option.some.inj h
    split_ifs
    · exact ⟨by simp [starts, emit, setProgress], by simp [emit, setProgress, Script.unchecked],
        fun q hq => script_goto_of_ne hq⟩
    · exact ⟨rfl, by simp, fun q hq => script_goto_of_ne hq⟩
  | await step x =>
    obtain rfl := Option.some.inj h
    split_ifs
    · exact ⟨by simp [starts, emit], by simp [emit], fun q hq => script_goto_of_ne hq⟩
    · exact ⟨rfl, by simp, fun q hq => script_goto_of_ne hq⟩

omit [DecidableEq ι] in
theorem requested_step {move : Party × Bool} (hrequested : s.requested) (h : s.step move = some s') :
    s'.requested := by
  obtain ⟨p, ok⟩ := move
  cases hscript : s.script p with
  | done => simp [step, hscript] at h
  | attempt | check | start =>
    simp only [Supervision.step, hscript, Option.some.injEq] at h
    subst h
    first | exact hrequested | (split_ifs <;> exact hrequested)
  | seq i next =>
    simp only [Supervision.step, hscript] at h
    cases i with
    | lock | request =>
      obtain ⟨-, h⟩ := Option.ite_none_right_eq_some.mp h
      obtain rfl := Option.some.inj h
      first | exact hrequested | rfl
    | unlock | arm | install | disarm | cleaning =>
      obtain rfl := Option.some.inj h
      exact hrequested
    | take | cleanup | await =>
      obtain rfl := Option.some.inj h
      split_ifs <;> exact hrequested

/-- A step after termination is asked for starts nothing, or what the runner had passed the check of and
then nothing else before the next one. -/
theorem starts_step {move : Party × Bool} (hs : s.Kept g m u) (hrequested : s.requested)
    (h : s.step move = some s') :
    s'.starts = s.starts ∧ (s'.script .runner).unchecked ⊆ (s.script .runner).unchecked ∨
      ∃ x ∈ (s.script .runner).unchecked, s'.starts = s.starts ++ [x] ∧
        (s'.script .runner).unchecked = [] := by
  have harmed : m.armed := hs.known.armed_of_asked (hs.known.asked ▸ hrequested)
  obtain ⟨p, ok⟩ := move
  cases p with
  | terminator =>
    have htearsDown := hs.terminator
    cases hscript : s.script .terminator with
    | done => simp [step, hscript] at h
    | seq i next =>
      simp only [Supervision.step, hscript] at h
      obtain ⟨hstarts, -, hothers⟩ := starts_perform h
      exact .inl ⟨hstarts, by rw [hothers _ (by decide)]; exact List.Subset.refl _⟩
    | attempt | check | start => simp [hscript, Script.tearsDown] at htearsDown
  | runner =>
    have hguarded := hs.runner
    cases hscript : s.script .runner with
    | done => simp [step, hscript] at h
    | seq i next =>
      simp only [Supervision.step, hscript] at h
      obtain ⟨hstarts, hunchecked, -⟩ := starts_perform h
      exact .inl ⟨hstarts, by rw [hunchecked]; exact List.Subset.refl _⟩
    | attempt step a b =>
      simp only [Supervision.step, hscript, Option.some.injEq] at h
      subst h
      refine .inl ⟨rfl, ?_⟩
      cases ok <;> simp [Script.unchecked]
    | check a b =>
      simp only [Supervision.step, hscript, Option.some.injEq] at h
      subst h
      exact .inl ⟨rfl, by simp [Script.unchecked, hrequested]⟩
    | start step x a b =>
      rw [hscript, Script.guarded, Bool.and_eq_true, Bool.and_eq_true] at hguarded
      simp only [Supervision.step, hscript, Option.some.injEq] at h
      subst h
      cases ok with
      | false =>
        refine .inl ⟨rfl, ?_⟩
        rw [if_neg Bool.false_ne_true, script_goto_self, unchecked_eq_nil hguarded.1.2 harmed rfl]
        exact List.nil_subset _
      | true =>
        refine .inr ⟨x, by simp [Script.unchecked], by simp [starts, emit], ?_⟩
        have hstarted := hguarded.2
        rw [if_pos rfl]
        simp only [emit, script_goto_self]
        split_ifs at hstarted
        · rw [Bool.and_eq_true] at hstarted
          exact unchecked_eq_nil hstarted.2 harmed rfl
        · exact unchecked_eq_nil hstarted harmed rfl

/-- What a runner may start without a check it starts under the gate. -/
theorem gate_of_mem_unchecked (hs : s.Kept g m u) (hrequested : s.requested)
    (hx : x ∈ (s.script .runner).unchecked) : s.gate = some .runner := by
  have harmed : m.armed := hs.known.armed_of_asked (hs.known.asked ▸ hrequested)
  have hpassed : m.passed := by
    by_contra hpassed
    rw [unchecked_eq_nil hs.runner harmed (Bool.eq_false_iff.mpr hpassed)] at hx
    exact absurd hx List.not_mem_nil
  exact hs.known.gate_runner.mp (hs.known.held_of_passed hpassed)

/-- **After termination is asked for, at most one more resource is started: one that the runner had
passed the check of, under the gate.** -/
theorem started_after_request {moves : List (Party × Bool)} {t : Supervision ι ρ}
    (hs : ∃ m u, s.Kept g m u) (hrequested : s.requested) (hr : RunWhere step g.Respected s moves)
    (h : run step s moves = some t) : t.starts = s.starts ∨
      ∃ x ∈ (s.script .runner).unchecked, t.starts = s.starts ++ [x] ∧ s.gate = some .runner := by
  induction moves generalizing s with
  | nil =>
    obtain rfl := Option.some.inj h
    exact .inl rfl
  | cons move moves ih =>
    obtain ⟨s', hmove, hrest⟩ := run_cons_eq_some.mp h
    obtain ⟨m, u, hkept⟩ := hs
    have hlater := ih (kept_step ⟨m, u, hkept⟩ hr.1 hmove) (requested_step hrequested hmove)
      (hr.2 s' hmove) hrest
    obtain ⟨hsame, hsub⟩ | ⟨x, hx, hstarted, hnone⟩ := starts_step hkept hrequested hmove
    · obtain hlater | ⟨x, hx, hlater, -⟩ := hlater
      · exact .inl (hlater.trans hsame)
      · exact .inr ⟨x, hsub hx, hsame ▸ hlater, gate_of_mem_unchecked hkept hrequested (hsub hx)⟩
    · obtain hlater | ⟨y, hy, -⟩ := hlater
      · exact .inr ⟨x, hx, hlater.trans hstarted, gate_of_mem_unchecked hkept hrequested hx⟩
      · exact absurd (hnone ▸ hy) List.not_mem_nil

end Supervision

end Vhrn
