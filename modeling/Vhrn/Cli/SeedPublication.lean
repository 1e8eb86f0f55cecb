import Vhrn.Foundations.Numerals
import Vhrn.Foundations.Runs

/-!
# Publishing seed files

A launch copies the host's seed files into the profile directory where they are missing: it looks at the
destination, writes a temporary file next to it and publishes that by a hard link. Launches run at the
same time as each other and as an agent that does there what it likes, and each can crash between any two
of its steps. A step of a launch is a change of its phase together with at most one effect on the
directory (`Phase.next`), so what seeding can do to an entry is said once, of effects.

`seeding_replaces_none`: no step of a launch changes what a destination stands for, whatever the agent
does. The rest holds beside an agent that leaves the temporary names alone. `seeding_keeps`: no step of a
launch changes what is in a destination. `seeding_publishes`: a destination that a launch creates holds
all that the launch made of the host's file it read, for as long as the agent does not write to it.
`seeding_cleans_up`: a launch that has finished and could remove its temporary files left none.
-/

namespace Vhrn.Cli.Seeding

/-! ## The directory -/

/-- A file is known by who created it: the agent (or an earlier program), or a launch by its counter. -/
inductive FileId (ι : Type*)
  | agent (n : ℕ)
  | seed (launch : ι) (n : ℕ)
  deriving DecidableEq

/-- What a name stands for: a regular file, or anything else. -/
inductive Node (ι : Type*)
  | file (id : FileId ι)
  | other
  deriving DecidableEq

/-- A name in a directory. -/
structure Entry where
  dir : Bytes
  name : Bytes
  deriving DecidableEq

/-- The name of the temporary file of a process. -/
def seedTemp (pid n : ℕ) : Bytes :=
  ascii ".vhrn-seed-" ++ Numerals.decimal pid ++ ascii "-" ++ Numerals.decimal n

/-- The name is that of a temporary file of seeding. -/
def Entry.IsTemp (e : Entry) : Prop := ascii ".vhrn-seed-" <+: e.name

instance (e : Entry) : Decidable e.IsTemp := inferInstanceAs (Decidable (_ <+: _))

/-- How a seed is made of the host's file: as it is, or as a JSON object without some of its keys. -/
inductive SeedFile
  | bytes
  | jsonObject (removeKeys : List Bytes)
  deriving DecidableEq

/-- A seed file: its name in the profile directory, and how it is made. -/
structure Seed where
  entry : Entry
  plain : ¬ entry.IsTemp
  file : SeedFile
  deriving DecidableEq

/-- The contents of a seed, unless the host's file is not what was declared. What a JSON object is
without some keys is up to the JSON library. -/
def seedContents (withoutKeys : List Bytes → Bytes → Option Bytes) (seed : Seed) (input : Bytes) :
    Option Bytes :=
  match seed.file with
  | .bytes => some input
  | .jsonObject removeKeys => withoutKeys removeKeys input

/-- The temporary file next to a seed file. -/
def Seed.temp (d : Seed) (pid n : ℕ) : Entry := ⟨d.entry.dir, seedTemp pid n⟩

theorem Seed.temp_isTemp (d : Seed) (pid n : ℕ) : (d.temp pid n).IsTemp := by
  simp only [Entry.IsTemp, Seed.temp, seedTemp, List.append_assoc]
  exact List.prefix_append _ _

/-- The names and the contents of the files, the files that the agent has opened, and how many it has
created. -/
structure Directory (ι : Type*) where
  entry : Entry → Option (Node ι)
  contents : FileId ι → Bytes
  opened : FileId ι → Bool
  created : ℕ

/-! ## A launch -/

/-- Where to go on after the temporary file is removed. -/
inductive After
  | seeds (rest : List Seed)
  | retry (d : Seed) (rest : List Seed) (contents : Bytes) (tries : ℕ)
  | failed
  deriving DecidableEq

/-- Where a launch is: the seeds that are left, the seed at hand and its contents, the number of the
temporary file and what is not written of it. -/
inductive Phase
  | waiting
  | look (seeds : List Seed)
  | source (d : Seed) (rest : List Seed)
  | create (d : Seed) (rest : List Seed) (contents : Bytes) (tries : ℕ)
  | write (d : Seed) (rest : List Seed) (contents : Bytes) (tries n : ℕ) (left : Bytes)
  | recheck (d : Seed) (rest : List Seed) (contents : Bytes) (tries n : ℕ)
  | drop (d : Seed) (n : ℕ) (after : After)
  | finished (ok : Bool)
  | crashed
  deriving DecidableEq

/-- The steps of a launch. Reading the host's file finds contents or none; a write writes some octets; the
temporary file is removed or that fails, which is ignored; any other call can fail. -/
inductive Action
  | start
  | look
  | read (found : Option Bytes)
  | create
  | write (count : ℕ)
  | link
  | recheck
  | drop (removed : Bool)
  | fail
  | crash

/-- What a step does to the directory. -/
inductive Effect (ι : Type*)
  | none
  | create (e : Entry) (n : ℕ)
  | append (n : ℕ) (octets : Bytes)
  | link (node : Node ι) (e : Entry)
  | remove (e : Entry)

section

variable {ι : Type*} [DecidableEq ι]

def Effect.apply (launch : ι) (dir : Directory ι) : Effect ι → Directory ι
  | .none => dir
  | .create e n =>
    { dir with entry := Function.update dir.entry e (some (.file (.seed launch n)))
               contents := Function.update dir.contents (.seed launch n) [] }
  | .append n octets =>
    { dir with contents := Function.update dir.contents (.seed launch n)
                             (dir.contents (.seed launch n) ++ octets) }
  | .link node e => { dir with entry := Function.update dir.entry e (some node) }
  | .remove e => { dir with entry := Function.update dir.entry e Option.none }

/-- How often a temporary name is tried. -/
def maxTries : ℕ := 16

/-- Where a launch goes on. -/
def After.phase : After → Phase
  | .seeds rest => .look rest
  | .retry d rest contents tries => .create d rest contents tries
  | .failed => .finished false

/-- The next phase of a launch, its counter and the effect. -/
def Phase.next (withoutKeys : List Bytes → Bytes → Option Bytes) (dir : Directory ι)
    (seeds : List Seed) (pid counter : ℕ) : Phase → Action → Option (Phase × ℕ × Effect ι)
  | .waiting, .start => some (.look seeds, counter, .none)
  | .look [], .look => some (.finished true, counter, .none)
  | .look (d :: rest), .look =>
    match dir.entry d.entry with
    | some (.file _) => some (.look rest, counter, .none)
    | some .other => some (.finished false, counter, .none)
    | none => some (.source d rest, counter, .none)
  | .source d rest, .read found =>
    match found with
    | none => some (.look rest, counter, .none)
    | some input =>
      match seedContents withoutKeys d input with
      | none => some (.finished false, counter, .none)
      | some contents => some (.create d rest contents maxTries, counter, .none)
  | .create _ _ _ 0, .create => some (.finished false, counter, .none)
  | .create d rest contents (tries + 1), .create =>
    if dir.entry (d.temp pid counter) = none then
      some (.write d rest contents tries counter contents, counter + 1, .create (d.temp pid counter) counter)
    else some (.create d rest contents tries, counter + 1, .none)
  | .write d rest contents tries n left, .write count =>
    some (.write d rest contents tries n (left.drop count), counter, .append n (left.take count))
  | .write d rest contents tries n [], .link =>
    match dir.entry (d.temp pid n), dir.entry d.entry with
    | none, _ => some (.drop d n .failed, counter, .none)
    | some node, none => some (.drop d n (.seeds rest), counter, .link node d.entry)
    | some _, some _ => some (.recheck d rest contents tries n, counter, .none)
  | .recheck d rest contents tries n, .recheck =>
    match dir.entry d.entry with
    | some (.file _) => some (.drop d n (.seeds rest), counter, .none)
    | some .other => some (.drop d n .failed, counter, .none)
    | none => some (.drop d n (.retry d rest contents tries), counter, .none)
  | .drop d n after, .drop true => some (after.phase, counter, .remove (d.temp pid n))
  | .drop _ _ after, .drop false => some (after.phase, counter, .none)
  | .look _, .fail | .source .., .fail | .create .., .fail => some (.finished false, counter, .none)
  | .write d _ _ _ n _, .fail | .recheck d _ _ _ n, .fail => some (.drop d n .failed, counter, .none)
  | .waiting, .crash | .finished _, .crash | .crashed, .crash => none
  | _, .crash => some (.crashed, counter, .none)
  | _, _ => none

/-! ## The agent -/

/-- What the agent does in the directory: create or replace a file or something else, link, remove, open a
file, write to an open one. -/
inductive AgentAction (ι : Type*)
  | put (e : Entry) (contents : Bytes)
  | other (e : Entry)
  | link (e e' : Entry)
  | remove (e : Entry)
  | open (e : Entry)
  | write (id : FileId ι) (contents : Bytes)

namespace AgentAction

def apply (dir : Directory ι) : AgentAction ι → Option (Directory ι)
  | .put e contents =>
    some { dir with entry := Function.update dir.entry e (some (.file (.agent dir.created)))
                    contents := Function.update dir.contents (.agent dir.created) contents
                    created := dir.created + 1 }
  | .other e => some { dir with entry := Function.update dir.entry e (some .other) }
  | .link e e' => some { dir with entry := Function.update dir.entry e' (dir.entry e) }
  | .remove e => some { dir with entry := Function.update dir.entry e none }
  | .open e =>
    match dir.entry e with
    | some (.file id) => some { dir with opened := Function.update dir.opened id true }
    | _ => none
  | .write id contents =>
    if dir.opened id then some { dir with contents := Function.update dir.contents id contents }
    else none

/-- The names that an action of the agent is about. -/
def names : AgentAction ι → List Entry
  | .put e _ | .other e | .remove e | .open e => [e]
  | .link e e' => [e, e']
  | .write .. => []

end AgentAction

/-! ## Everyone together -/

/-- The directory, and the phase and counter of every launch. -/
structure Profile (ι : Type*) where
  dir : Directory ι
  phase : ι → Phase
  counter : ι → ℕ

inductive Event (ι : Type*)
  | launch (i : ι) (action : Action)
  | agent (action : AgentAction ι)

/-- The agent leaves the temporary names alone. -/
def Event.Respects : Event ι → Prop
  | .agent action => ∀ e ∈ action.names, ¬ e.IsTemp
  | .launch .. => True

instance : ∀ event : Event ι, Decidable event.Respects
  | .agent action => inferInstanceAs (Decidable (∀ e ∈ action.names, ¬ e.IsTemp))
  | .launch .. => isTrue trivial

variable (withoutKeys : List Bytes → Bytes → Option Bytes) (pid : ι → ℕ) (seeds : ι → List Seed)

/-- One step of one launch or of the agent. -/
def seedStep (s : Profile ι) : Event ι → Option (Profile ι)
  | .launch i action =>
    ((s.phase i).next withoutKeys s.dir (seeds i) (pid i) (s.counter i) action).map
      fun (phase, counter, effect) =>
      { dir := effect.apply i s.dir
        phase := Function.update s.phase i phase
        counter := Function.update s.counter i counter }
  | .agent action => (action.apply s.dir).map fun dir => { s with dir := dir }

/-! ## What a step of a launch can do -/

/-- The temporary file that a phase holds. -/
def Phase.temp : Phase → Option (Seed × ℕ)
  | .write d _ _ _ n _ => some (d, n)
  | .recheck d _ _ _ n => some (d, n)
  | .drop d n _ => some (d, n)
  | _ => none

/-- The number of the temporary file that is being written. -/
def Phase.writing : Phase → Option ℕ
  | .write _ _ _ _ n _ => some n
  | _ => none

/-- The seed and the contents that a phase has been given. -/
def Phase.carried : Phase → Option (Seed × Bytes)
  | .create d _ contents _ => some (d, contents)
  | .write d _ contents _ _ _ => some (d, contents)
  | .recheck d _ contents _ _ => some (d, contents)
  | .drop _ _ (.retry d _ contents _) => some (d, contents)
  | _ => none

/-- The changes of a launch: without an effect, creating its temporary file under a name that was free,
writing to it, linking what has its name to a destination that was free, and removing it or not. -/
inductive Change (dir : Directory ι) (pid counter : ℕ) :
    Action → Phase → Phase → ℕ → Effect ι → Prop
  | quiet {action : Action} {phase phase' : Phase} {counter' : ℕ} (hlive : phase ≠ .crashed)
      (hcounter : counter ≤ counter') (hwriting : phase'.writing = none)
      (htemp : phase'.temp = phase.temp ∨ phase' = .crashed) :
      Change dir pid counter action phase phase' counter' .none
  | create {d : Seed} {rest : List Seed} {contents : Bytes} {tries tries' : ℕ}
      (hfree : dir.entry (d.temp pid counter) = none) :
      Change dir pid counter .create (.create d rest contents tries)
        (.write d rest contents tries' counter contents) (counter + 1)
        (.create (d.temp pid counter) counter)
  | append {d : Seed} {rest : List Seed} {contents : Bytes} {tries n : ℕ} {left : Bytes} (count : ℕ) :
      Change dir pid counter (.write count) (.write d rest contents tries n left)
        (.write d rest contents tries n (left.drop count)) counter (.append n (left.take count))
  | link {d : Seed} {rest : List Seed} {contents : Bytes} {tries n : ℕ} {node : Node ι}
      (htemp : dir.entry (d.temp pid n) = some node) (hfree : dir.entry d.entry = none) :
      Change dir pid counter .link (.write d rest contents tries n []) (.drop d n (.seeds rest)) counter
        (.link node d.entry)
  | remove {d : Seed} {n : ℕ} {after : After} :
      Change dir pid counter (.drop true) (.drop d n after) after.phase counter (.remove (d.temp pid n))
  | keep {d : Seed} {n : ℕ} {after : After} :
      Change dir pid counter (.drop false) (.drop d n after) after.phase counter .none

@[simp] theorem After.temp_phase (after : After) : after.phase.temp = none := by cases after <;> rfl

@[simp] theorem After.writing_phase (after : After) : after.phase.writing = none := by
  cases after <;> rfl

theorem After.carried_phase (d : Seed) (n : ℕ) (after : After) :
    after.phase.carried = (Phase.drop d n after).carried := by
  cases after <;> rfl

section

variable {withoutKeys : List Bytes → Bytes → Option Bytes} {dir : Directory ι} {seeds : List Seed}
  {pid counter counter' : ℕ} {phase phase' : Phase} {action : Action} {effect : Effect ι}

omit [DecidableEq ι] in
theorem change_of_next
    (h : phase.next withoutKeys dir seeds pid counter action = some (phase', counter', effect)) :
    Change dir pid counter action phase phase' counter' effect := by
  unfold Phase.next at h
  split at h
  all_goals try split at h
  all_goals try split at h
  all_goals cases h
  all_goals try exact .quiet (by simp) le_rfl rfl (.inl rfl)
  -- what is left has an effect, moves the counter or is a crash
  · exact .create (by assumption)
  · exact .quiet (by simp) (Nat.le_succ counter) rfl (.inl rfl)
  · exact .append _
  · exact .link (by assumption) (by assumption)
  · exact .remove
  · exact .keep
  · rename_i hlive
    exact .quiet hlive le_rfl rfl (.inr rfl)

omit [DecidableEq ι] in
/-- What a phase has been given it had before, or it was made of the host's file that was read. -/
theorem carried_of_next
    (h : phase.next withoutKeys dir seeds pid counter action = some (phase', counter', effect))
    {d : Seed} {contents : Bytes} (hcarried : phase'.carried = some (d, contents)) :
    (phase.carried = some (d, contents) ∧ ∀ found, action ≠ .read found) ∨
      ∃ rest input, phase = .source d rest ∧ action = .read (some input) ∧
        seedContents withoutKeys d input = some contents := by
  unfold Phase.next at h
  split at h
  all_goals try split at h
  all_goals try split at h
  all_goals cases h
  all_goals try cases hcarried
  all_goals try exact .inl ⟨rfl, fun _ => Action.noConfusion⟩
  -- what is left is the reading of the host's file, and where a launch goes on
  · exact .inr ⟨_, _, rfl, rfl, by assumption⟩
  · exact .inl ⟨(After.carried_phase ..).symm.trans hcarried, fun _ => Action.noConfusion⟩
  · exact .inl ⟨(After.carried_phase ..).symm.trans hcarried, fun _ => Action.noConfusion⟩

end

/-! ## The invariant -/

/-- The files of a launch and its phase correspond: its temporary file is there, a file of it that is being
written has no other name, is not open elsewhere and holds what was written of its contents. -/
structure SoundFor (pid : ℕ) (dir : Directory ι) (i : ι) (phase : Phase) (counter : ℕ) : Prop where
  held : ∀ d n, phase.temp = some (d, n) → dir.entry (d.temp pid n) = some (.file (.seed i n))
  numbered : ∀ n, (∃ e, dir.entry e = some (.file (.seed i n))) ∨ dir.opened (.seed i n) = true →
    n < counter
  hidden : ∀ n, phase.writing = some n → dir.opened (.seed i n) = false ∧
    ∀ e, dir.entry e = some (.file (.seed i n)) → e.IsTemp
  written : ∀ d rest contents tries n left, phase = .write d rest contents tries n left →
    dir.contents (.seed i n) ++ left = contents

/-- A launch has no temporary file but the one that its phase holds, unless it crashed. -/
def TidyFor (pid : ℕ) (dir : Directory ι) (i : ι) (phase : Phase) : Prop :=
  ∀ e n, dir.entry e = some (.file (.seed i n)) → e.IsTemp →
    phase = .crashed ∨ ∃ d, phase.temp = some (d, n) ∧ e = d.temp pid n

/-- Every launch and its files correspond. -/
def Sound (pid : ι → ℕ) (s : Profile ι) : Prop :=
  ∀ i, SoundFor (pid i) s.dir i (s.phase i) (s.counter i)

/-- Nothing of seeding is there yet. -/
structure Profile.Initial (s : Profile ι) : Prop where
  waiting : ∀ i, s.phase i = .waiting
  entries : ∀ e i n, s.dir.entry e ≠ some (.file (.seed i n))
  opened : ∀ i n, s.dir.opened (.seed i n) = false

section

variable {pid : ι → ℕ}

omit [DecidableEq ι] in
theorem sound_of_initial {s : Profile ι} (h : s.Initial) : Sound pid s := by
  intro i
  rw [h.waiting i]
  refine ⟨fun d n htemp => (by cases htemp), fun n hn => ?_, fun n hw => (by cases hw),
    fun d rest contents tries n left hphase => (by cases hphase)⟩
  rcases hn with ⟨e, he⟩ | hopen
  · exact absurd he (h.entries e i n)
  · exact absurd hopen (by simp [h.opened i n])

omit [DecidableEq ι] in
theorem tidy_of_initial {s : Profile ι} (h : s.Initial) (i : ι) :
    TidyFor (pid i) s.dir i (s.phase i) := fun e n he => absurd he (h.entries e i n)

end

/-- What a change by someone else leaves of a launch's files: temporary names stay, other names and
opened files come from names that are not temporary, and only opened files are written. -/
structure Leaves (dir dir' : Directory ι) (i : ι) : Prop where
  temps : ∀ e n, dir.entry e = some (.file (.seed i n)) → e.IsTemp →
    dir'.entry e = some (.file (.seed i n))
  names : ∀ e n, dir'.entry e = some (.file (.seed i n)) →
    dir.entry e = some (.file (.seed i n)) ∨
      ¬ e.IsTemp ∧ ∃ e₀, ¬ e₀.IsTemp ∧ dir.entry e₀ = some (.file (.seed i n))
  opened : ∀ n, dir'.opened (.seed i n) = true → dir.opened (.seed i n) = true ∨
    ∃ e, ¬ e.IsTemp ∧ dir.entry e = some (.file (.seed i n))
  contents : ∀ n, dir'.contents (.seed i n) = dir.contents (.seed i n) ∨ dir.opened (.seed i n) = true

section

variable {dir dir' : Directory ι} {i j : ι} {pid counter counter' : ℕ} {action : Action}
  {phase phase' : Phase} {effect : Effect ι}

omit [DecidableEq ι] in
theorem update_eq_some_iff {e e' : Entry} {new : Option (Node ι)} {node : Node ι} :
    Function.update dir.entry e new e' = some node ↔
      e' = e ∧ new = some node ∨ e' ≠ e ∧ dir.entry e' = some node := by
  rw [Function.update_apply]
  split
  · simp_all
  · simp_all

omit [DecidableEq ι] in
theorem SoundFor.of_leaves (h : SoundFor pid dir i phase counter) (hleaves : Leaves dir dir' i) :
    SoundFor pid dir' i phase counter := by
  have hexists {n : ℕ} (hn : ∃ e, dir'.entry e = some (.file (.seed i n))) :
      ∃ e, dir.entry e = some (.file (.seed i n)) := by
    obtain ⟨e, he⟩ := hn
    rcases hleaves.names e n he with he | ⟨-, e₀, -, he₀⟩
    · exact ⟨e, he⟩
    · exact ⟨e₀, he₀⟩
  refine ⟨fun d n htemp => ?_, fun n hn => ?_, fun n hw => ⟨?_, fun e he => ?_⟩,
    fun d rest contents tries n left hphase => ?_⟩
  · exact hleaves.temps _ n (h.held d n htemp) (d.temp_isTemp pid n)
  · rcases hn with hn | hopen
    · exact h.numbered n (.inl (hexists hn))
    · rcases hleaves.opened n hopen with hopen | ⟨e, -, he⟩
      · exact h.numbered n (.inr hopen)
      · exact h.numbered n (.inl ⟨e, he⟩)
  · obtain ⟨hclosed, htemps⟩ := h.hidden n hw
    by_contra hopen
    rcases hleaves.opened n (by simpa using hopen) with hopen | ⟨e, hplain, he⟩
    · exact absurd hopen (by simp [hclosed])
    · exact hplain (htemps e he)
  · obtain ⟨-, htemps⟩ := h.hidden n hw
    rcases hleaves.names e n he with he | ⟨-, e₀, hplain, he₀⟩
    · exact htemps e he
    · exact absurd (htemps e₀ he₀) hplain
  · have hwriting : phase.writing = some n := by rw [hphase]; rfl
    rcases hleaves.contents n with heq | hopen
    · rw [heq]
      exact h.written d rest contents tries n left hphase
    · exact absurd hopen (by simp [(h.hidden n hwriting).1])

omit [DecidableEq ι] in
theorem TidyFor.of_leaves (h : TidyFor pid dir i phase) (hleaves : Leaves dir dir' i) :
    TidyFor pid dir' i phase := by
  intro e n he htemp
  rcases hleaves.names e n he with he | ⟨hplain, -⟩
  · exact h e n he htemp
  · exact absurd htemp hplain

/-- An effect touches only a free name, or a name of the launch's own file, and links only such a file. -/
theorem leaves_effect (hij : j ≠ i)
    (htouched : ∀ e, (∃ n, effect = .create e n) ∨ (∃ node, effect = .link node e) ∨ effect = .remove e →
      dir.entry e = none ∨ ∃ n, dir.entry e = some (.file (.seed i n)))
    (hlinked : ∀ node e, effect = .link node e → ∃ n, node = .file (.seed i n)) :
    Leaves dir (effect.apply i dir) j := by
  have hne {m n : ℕ} : FileId.seed j m ≠ FileId.seed i n := by
    intro h
    exact hij (FileId.seed.inj h).1
  have hother {e : Entry} {n : ℕ} (h : dir.entry e = none ∨ ∃ n, dir.entry e = some (.file (.seed i n))) :
      dir.entry e ≠ some (.file (.seed j n)) := by
    intro he
    rcases h with h | ⟨m, h⟩
    · rw [h] at he
      cases he
    · rw [h, Option.some.injEq, Node.file.injEq] at he
      exact hne he.symm
  have hset {e : Entry} {node : Option (Node ι)} (hnode : ∀ n, node ≠ some (.file (.seed j n)))
      (h : dir.entry e = none ∨ ∃ n, dir.entry e = some (.file (.seed i n))) (e' : Entry) (n : ℕ) :
      Function.update dir.entry e node e' = some (.file (.seed j n)) ↔
        dir.entry e' = some (.file (.seed j n)) := by
    by_cases he : e' = e
    · subst he
      rw [Function.update_self]
      exact iff_of_false (hnode n) (hother h)
    · rw [Function.update_of_ne he]
  have hfile (n m : ℕ) : (some (.file (.seed i n)) : Option (Node ι)) ≠ some (.file (.seed j m)) := by
    rw [Ne, Option.some.injEq, Node.file.injEq]
    exact hne.symm
  cases effect with
  | none => exact ⟨fun _ _ h _ => h, fun _ _ h => .inl h, fun _ h => .inl h, fun _ => .inl rfl⟩
  | create e n =>
    have h := hset (hfile n) (htouched e (.inl ⟨n, rfl⟩))
    exact ⟨fun e' m he _ => (h e' m).mpr he, fun e' m he => .inl ((h e' m).mp he), fun _ h => .inl h,
      fun m => .inl (Function.update_of_ne hne _ _)⟩
  | append n octets =>
    exact ⟨fun _ _ h _ => h, fun _ _ h => .inl h, fun _ h => .inl h,
      fun m => .inl (Function.update_of_ne hne _ _)⟩
  | link node e =>
    obtain ⟨n, rfl⟩ := hlinked node e rfl
    have h := hset (hfile n) (htouched e (.inr (.inl ⟨_, rfl⟩)))
    exact ⟨fun e' m he _ => (h e' m).mpr he, fun e' m he => .inl ((h e' m).mp he), fun _ h => .inl h,
      fun _ => .inl rfl⟩
  | remove e =>
    have hnone (n : ℕ) : (none : Option (Node ι)) ≠ some (.file (.seed j n)) := by simp
    have h := hset hnone (htouched e (.inr (.inr rfl)))
    exact ⟨fun e' m he _ => (h e' m).mpr he, fun e' m he => .inl ((h e' m).mp he), fun _ h => .inl h,
      fun _ => .inl rfl⟩

/-- A step of a launch leaves the files of the others: a created or linked name was free, and a removed one
was that of its own file. -/
theorem Change.leaves (hchange : Change dir pid counter action phase phase' counter' effect)
    (h : SoundFor pid dir i phase counter) (hij : j ≠ i) : Leaves dir (effect.apply i dir) j := by
  refine leaves_effect hij (fun e he => ?_) (fun node e he => ?_)
  · cases hchange with
    | quiet => simp at he
    | create hfree =>
      obtain ⟨n, he⟩ := he.resolve_right (by simp)
      cases he
      exact .inl hfree
    | append => simp at he
    | link _ hfree =>
      obtain ⟨node, he⟩ := (he.resolve_left (by simp)).resolve_right nofun
      cases he
      exact .inl hfree
    | @remove d n =>
      cases (he.resolve_left (by simp)).resolve_left (by simp)
      exact .inr ⟨n, h.held d n rfl⟩
    | keep => simp at he
  · cases hchange with
    | @link d _ _ _ n _ htemp =>
      obtain ⟨rfl, rfl⟩ := Effect.link.inj he
      exact ⟨n, Option.some.inj (htemp.symm.trans (h.held d n rfl))⟩
    | quiet | create | append | remove | keep => cases he

/-- The launch that moves keeps its correspondence. -/
theorem SoundFor.change (hchange : Change dir pid counter action phase phase' counter' effect)
    (h : SoundFor pid dir i phase counter) : SoundFor pid (effect.apply i dir) i phase' counter' := by
  cases hchange with
  | quiet hlive hcounter hwriting htemp =>
    refine ⟨fun d n hd => ?_, fun n hn => lt_of_lt_of_le (h.numbered n hn) hcounter, fun n hw => ?_,
      fun d rest contents tries n left hphase => ?_⟩
    · rcases htemp with htemp | rfl
      · exact h.held d n (htemp.symm.trans hd)
      · cases hd
    · rw [hwriting] at hw
      cases hw
    · rw [hphase] at hwriting
      cases hwriting
  | @create d rest contents tries tries' hfree =>
    refine ⟨fun d' n hd => ?_, fun n hn => ?_, fun n hw => ?_,
      fun d' rest' contents' tries' n left hphase => ?_⟩
    · obtain ⟨rfl, rfl⟩ := Prod.mk.inj (Option.some.inj hd)
      exact Function.update_self ..
    · rcases hn with ⟨e, he⟩ | hopen
      · rcases update_eq_some_iff.mp he with ⟨-, hnew⟩ | ⟨-, he⟩
        · cases hnew
          exact Nat.lt_succ_self _
        · exact Nat.lt_succ_of_lt (h.numbered n (.inl ⟨e, he⟩))
      · exact Nat.lt_succ_of_lt (h.numbered n (.inr hopen))
    · obtain rfl : counter = n := Option.some.inj hw
      have hnew : ¬ ((∃ e, dir.entry e = some (.file (.seed i counter))) ∨
          dir.opened (.seed i counter) = true) := fun hn => absurd (h.numbered counter hn) (lt_irrefl _)
      rw [not_or] at hnew
      refine ⟨Bool.eq_false_iff.mpr hnew.2, fun e he => ?_⟩
      rcases update_eq_some_iff.mp he with ⟨rfl, -⟩ | ⟨-, he⟩
      · exact d.temp_isTemp pid counter
      · exact absurd ⟨e, he⟩ hnew.1
    · cases hphase
      simp [Effect.apply]
  | @append d rest contents tries n left count =>
    refine ⟨h.held, h.numbered, h.hidden, fun d' rest' contents' tries' n' left' hphase => ?_⟩
    cases hphase
    simp only [Effect.apply, Function.update_self, List.append_assoc, List.take_append_drop]
    exact h.written d rest contents tries n left rfl
  | @link d rest contents tries n node htemp hfree =>
    have hT : d.temp pid n ≠ d.entry := fun heq => d.plain (heq ▸ d.temp_isTemp pid n)
    have hheld := h.held d n rfl
    refine ⟨fun d' m hd => ?_, fun m hm => ?_, fun m hw => (by cases hw),
      fun d' rest' contents' tries' m left' hphase => (by cases hphase)⟩
    · obtain ⟨rfl, rfl⟩ := Prod.mk.inj (Option.some.inj hd)
      exact (Function.update_of_ne hT _ _).trans hheld
    · rcases hm with ⟨e, he⟩ | hopen
      · rcases update_eq_some_iff.mp he with ⟨-, hnode⟩ | ⟨-, he⟩
        · exact h.numbered m (.inl ⟨_, htemp.trans hnode⟩)
        · exact h.numbered m (.inl ⟨e, he⟩)
      · exact h.numbered m (.inr hopen)
  | @remove d n after =>
    refine ⟨fun d' m hd => ?_, fun m hm => ?_, fun m hw => ?_,
      fun d' rest' contents' tries' m left' hphase => ?_⟩
    · rw [After.temp_phase] at hd
      cases hd
    · rcases hm with ⟨e, he⟩ | hopen
      · rcases update_eq_some_iff.mp he with ⟨-, hnone⟩ | ⟨-, he⟩
        · cases hnone
        · exact h.numbered m (.inl ⟨e, he⟩)
      · exact h.numbered m (.inr hopen)
    · rw [After.writing_phase] at hw
      cases hw
    · have hw := after.writing_phase
      rw [hphase] at hw
      cases hw
  | @keep d n after =>
    refine ⟨fun d' m hd => ?_, h.numbered, fun m hw => ?_,
      fun d' rest' contents' tries' m left' hphase => ?_⟩
    · rw [After.temp_phase] at hd
      cases hd
    · rw [After.writing_phase] at hw
      cases hw
    · have hw := after.writing_phase
      rw [hphase] at hw
      cases hw

/-- A launch stays tidy as long as it can remove its temporary files. -/
theorem TidyFor.change (hchange : Change dir pid counter action phase phase' counter' effect)
    (h : TidyFor pid dir i phase) (hremoved : action ≠ .drop false) :
    TidyFor pid (effect.apply i dir) i phase' := by
  intro e m he htemp
  cases hchange with
  | quiet hlive _ _ hphase =>
    rcases h e m he htemp with hcrashed | ⟨d, hd, rfl⟩
    · exact absurd hcrashed hlive
    · exact (Or.symm hphase).imp id fun hphase => ⟨d, hphase.trans hd, rfl⟩
  | @create d =>
    rcases update_eq_some_iff.mp he with ⟨rfl, hnew⟩ | ⟨-, he⟩
    · cases hnew
      exact .inr ⟨d, rfl, rfl⟩
    · rcases h e m he htemp with hcrashed | ⟨d', hd', -⟩
      · cases hcrashed
      · cases hd'
  | append => exact .inr ((h e m he htemp).resolve_left nofun)
  | @link d =>
    rcases update_eq_some_iff.mp he with ⟨rfl, -⟩ | ⟨-, he⟩
    · exact absurd htemp d.plain
    · exact .inr ((h e m he htemp).resolve_left nofun)
  | @remove d n =>
    rcases update_eq_some_iff.mp he with ⟨-, hnone⟩ | ⟨hT, he⟩
    · cases hnone
    · obtain ⟨d', hd', rfl⟩ := (h e m he htemp).resolve_left nofun
      obtain ⟨rfl, rfl⟩ := Prod.mk.inj (Option.some.inj hd')
      exact absurd rfl hT
  | keep => exact absurd rfl hremoved

/-- What the agent does to names that are not temporary leaves the files of every launch. -/
theorem leaves_agent {agent : AgentAction ι} (h : agent.apply dir = some dir')
    (hrespects : ∀ e ∈ agent.names, ¬ e.IsTemp) (j : ι) : Leaves dir dir' j := by
  have hset {e : Entry} (hplain : ¬ e.IsTemp) (node : Option (Node ι))
      (hnode : ∀ n, node = some (.file (.seed j n)) → ∃ e₀, ¬ e₀.IsTemp ∧
        dir.entry e₀ = some (.file (.seed j n))) :
      (∀ e' n, dir.entry e' = some (.file (.seed j n)) → e'.IsTemp →
        Function.update dir.entry e node e' = some (.file (.seed j n))) ∧
      ∀ e' n, Function.update dir.entry e node e' = some (.file (.seed j n)) →
        dir.entry e' = some (.file (.seed j n)) ∨
          ¬ e'.IsTemp ∧ ∃ e₀, ¬ e₀.IsTemp ∧ dir.entry e₀ = some (.file (.seed j n)) := by
    constructor
    · intro e' n he ht
      rwa [Function.update_of_ne]
      rintro rfl
      exact hplain ht
    · intro e' n he
      rcases update_eq_some_iff.mp he with ⟨rfl, hnew⟩ | ⟨-, he⟩
      · exact .inr ⟨hplain, hnode n hnew⟩
      · exact .inl he
  cases agent with
  | put e contents =>
    obtain rfl := Option.some.inj h
    have hne (n : ℕ) : FileId.seed j n ≠ .agent dir.created := by simp
    obtain ⟨ht, hn⟩ := hset (hrespects e (by simp [AgentAction.names]))
      (some (.file (.agent dir.created))) fun n h => by simp at h
    exact ⟨ht, hn, fun _ h => .inl h, fun n => .inl (Function.update_of_ne (hne n) contents _)⟩
  | other e =>
    obtain rfl := Option.some.inj h
    obtain ⟨ht, hn⟩ := hset (hrespects e (by simp [AgentAction.names])) (some .other)
      fun n h => by simp at h
    exact ⟨ht, hn, fun _ h => .inl h, fun _ => .inl rfl⟩
  | link e e' =>
    obtain rfl := Option.some.inj h
    obtain ⟨ht, hn⟩ := hset (hrespects e' (by simp [AgentAction.names])) (dir.entry e)
      fun n h => ⟨e, hrespects e (by simp [AgentAction.names]), h⟩
    exact ⟨ht, hn, fun _ h => .inl h, fun _ => .inl rfl⟩
  | remove e =>
    obtain rfl := Option.some.inj h
    obtain ⟨ht, hn⟩ := hset (hrespects e (by simp [AgentAction.names])) none fun n h => by simp at h
    exact ⟨ht, hn, fun _ h => .inl h, fun _ => .inl rfl⟩
  | «open» e =>
    unfold AgentAction.apply at h
    simp only at h
    split at h
    · rename_i id hid
      obtain rfl := Option.some.inj h
      refine ⟨fun _ _ h _ => h, fun _ _ h => .inl h, fun n hn => ?_, fun _ => .inl rfl⟩
      by_cases heq : FileId.seed j n = id
      · exact .inr ⟨e, hrespects e (by simp [AgentAction.names]), heq ▸ hid⟩
      · simp only [Function.update_of_ne heq] at hn
        exact .inl hn
    · cases h
  | write id contents =>
    obtain ⟨hopen, hdir⟩ := Option.ite_none_right_eq_some.mp h
    obtain rfl := Option.some.inj hdir
    refine ⟨fun _ _ h _ => h, fun _ _ h => .inl h, fun _ h => .inl h, fun n => ?_⟩
    by_cases heq : FileId.seed j n = id
    · exact .inr (heq ▸ hopen)
    · exact .inl (Function.update_of_ne heq _ _)

end

/-! ## Runs -/

section

variable {withoutKeys : List Bytes → Bytes → Option Bytes} {pid : ι → ℕ} {seeds : ι → List Seed}
  {s s' : Profile ι} {event : Event ι}

/-- A step of a launch, with what it changes. -/
theorem launch_cases {i : ι} {action : Action}
    (h : seedStep withoutKeys pid seeds s (.launch i action) = some s') : ∃ phase counter effect,
    Change s.dir (pid i) (s.counter i) action (s.phase i) phase counter effect ∧
      s' = { dir := effect.apply i s.dir
             phase := Function.update s.phase i phase
             counter := Function.update s.counter i counter } := by
  obtain ⟨⟨phase, counter, effect⟩, hnext, rfl⟩ := Option.map_eq_some_iff.mp h
  exact ⟨phase, counter, effect, change_of_next hnext, rfl⟩

theorem agent_cases {agent : AgentAction ι}
    (h : seedStep withoutKeys pid seeds s (.agent agent) = some s') :
    ∃ dir, agent.apply s.dir = some dir ∧ s' = { s with dir := dir } := by
  obtain ⟨dir, hdir, rfl⟩ := Option.map_eq_some_iff.mp h
  exact ⟨dir, hdir, rfl⟩

/-- **Every step keeps the correspondence of launches and files**, as long as the agent leaves temporary
names alone. -/
theorem sound_step (hrespects : event.Respects) (h : seedStep withoutKeys pid seeds s event = some s')
    (hs : Sound pid s) : Sound pid s' := by
  intro j
  cases event with
  | launch i action =>
    obtain ⟨phase, counter, effect, hchange, rfl⟩ := launch_cases h
    by_cases hij : j = i
    · subst hij
      simpa using (hs j).change hchange
    · simpa [Function.update_of_ne hij] using (hs j).of_leaves (hchange.leaves (hs i) hij)
  | agent agent =>
    obtain ⟨dir, hdir, rfl⟩ := agent_cases h
    exact (hs j).of_leaves (leaves_agent hdir hrespects j)

/-- A launch stays tidy also when others move. -/
theorem tidy_step (hs : Sound pid s) {j : ι} (hrespects : event.Respects)
    (hremoved : event ≠ .launch j (.drop false)) (h : seedStep withoutKeys pid seeds s event = some s')
    (htidy : TidyFor (pid j) s.dir j (s.phase j)) : TidyFor (pid j) s'.dir j (s'.phase j) := by
  cases event with
  | launch i action =>
    obtain ⟨phase, counter, effect, hchange, rfl⟩ := launch_cases h
    by_cases hij : j = i
    · subst hij
      have hkept : action ≠ .drop false := fun heq => hremoved (heq ▸ rfl)
      simpa using htidy.change hchange hkept
    · simpa [Function.update_of_ne hij] using htidy.of_leaves (hchange.leaves (hs i) hij)
  | agent agent =>
    obtain ⟨dir, hdir, rfl⟩ := agent_cases h
    exact htidy.of_leaves (leaves_agent hdir hrespects j)

theorem sound_run {s₀ : Profile ι} {events : List (Event ι)} (hstart : s₀.Initial)
    (hrun : run (seedStep withoutKeys pid seeds) s₀ events = some s)
    (hrespects : ∀ event ∈ events, event.Respects) : Sound pid s := by
  refine run_invariant_where (fun hallowed hstep hs => ?_) (runWhere_of_mem s₀ hrespects) hrun
    (sound_of_initial hstart)
  exact sound_step hallowed hstep hs

theorem tidy_run {s₀ : Profile ι} {events : List (Event ι)} (hstart : s₀.Initial)
    (hrun : run (seedStep withoutKeys pid seeds) s₀ events = some s)
    (hrespects : ∀ event ∈ events, event.Respects) {j : ι}
    (hremoved : .launch j (.drop false) ∉ events) : TidyFor (pid j) s.dir j (s.phase j) := by
  have hallowed : ∀ event ∈ events, event.Respects ∧ event ≠ .launch j (.drop false) :=
    fun event hevent => ⟨hrespects event hevent, fun heq => hremoved (heq ▸ hevent)⟩
  have hboth : Sound pid s ∧ TidyFor (pid j) s.dir j (s.phase j) :=
    run_invariant_where (P := fun s => Sound pid s ∧ TidyFor (pid j) s.dir j (s.phase j))
      (fun hallowed hstep hs => ⟨sound_step hallowed.1 hstep hs.1,
        tidy_step hs.1 hallowed.1 hallowed.2 hstep hs.2⟩)
      (runWhere_of_mem s₀ hallowed) hrun ⟨sound_of_initial hstart, tidy_of_initial hstart j⟩
  exact hboth.2

end

/-! ## What a launch publishes -/

section

variable (withoutKeys : List Bytes → Bytes → Option Bytes) (pid : ι → ℕ) (seeds : ι → List Seed)

/-- The contents of the seed are all that the launch made of the host's file when it last read one. -/
inductive Made (s₀ : Profile ι) : List (Event ι) → ι → Seed → Bytes → Prop
  | intro {before after : List (Event ι)} {s : Profile ι} {i : ι} {d : Seed} {rest : List Seed}
      {input contents : Bytes} (hrun : run (seedStep withoutKeys pid seeds) s₀ before = some s)
      (hphase : s.phase i = .source d rest) (hmade : seedContents withoutKeys d input = some contents)
      (hlast : ∀ found, .launch i (.read found) ∉ after) :
      Made s₀ (before ++ .launch i (.read (some input)) :: after) i d contents

end

section

variable {withoutKeys : List Bytes → Bytes → Option Bytes} {pid : ι → ℕ} {seeds : ι → List Seed}
  {s₀ s s' : Profile ι} {events : List (Event ι)} {event : Event ι}

theorem Made.concat {i : ι} {d : Seed} {contents : Bytes}
    (h : Made withoutKeys pid seeds s₀ events i d contents)
    (hread : ∀ found, event ≠ .launch i (.read found)) :
    Made withoutKeys pid seeds s₀ (events ++ [event]) i d contents := by
  cases h with
  | intro hrun hphase hmade hlast =>
    rw [List.append_assoc, List.cons_append]
    refine .intro hrun hphase hmade fun found hmem => ?_
    rcases List.mem_append.mp hmem with hmem | hmem
    · exact hlast found hmem
    · exact hread found (List.mem_singleton.mp hmem).symm

/-- **What the phases carry was made of the host's files that were read.** -/
theorem made_run (hstart : s₀.Initial) (hrun : run (seedStep withoutKeys pid seeds) s₀ events = some s)
    (i : ι) {d : Seed} {contents : Bytes} (hcarried : (s.phase i).carried = some (d, contents)) :
    Made withoutKeys pid seeds s₀ events i d contents := by
  have hall : ∀ d contents, (s.phase i).carried = some (d, contents) →
      Made withoutKeys pid seeds s₀ events i d contents := by
    refine run_history (P := fun events s => ∀ d contents, (s.phase i).carried = some (d, contents) →
      Made withoutKeys pid seeds s₀ events i d contents) (fun d contents h => ?_) ?_ hrun
    · rw [hstart.waiting i] at h
      cases h
    · intro events s event s' hrun hstep hmade d contents hcarried
      cases event with
      | launch j action =>
        obtain ⟨⟨phase, counter, effect⟩, hnext, rfl⟩ := Option.map_eq_some_iff.mp hstep
        simp only at hcarried
        by_cases hij : i = j
        · subst hij
          rw [Function.update_self] at hcarried
          rcases carried_of_next hnext hcarried with ⟨hbefore, hread⟩ | ⟨rest, input, hphase, rfl, hnew⟩
          · refine (hmade d contents hbefore).concat fun found heq => hread found ?_
            exact (Event.launch.inj heq).2
          · exact .intro hrun hphase hnew fun _ => List.not_mem_nil
        · rw [Function.update_of_ne hij] at hcarried
          refine (hmade d contents hcarried).concat fun found heq => hij ?_
          exact (Event.launch.inj heq).1.symm
      | agent agent =>
        obtain ⟨dir, -, rfl⟩ := agent_cases hstep
        exact (hmade d contents hcarried).concat fun found => nofun
  exact hall d contents hcarried

end

/-! ## What seeding keeps, publishes and leaves behind -/

/-- Every name that is not temporary stands for what it stood for. -/
def Directory.KeepsNames (dir dir' : Directory ι) : Prop :=
  ∀ e node, ¬ e.IsTemp → dir.entry e = some node → dir'.entry e = some node

/-- The files of such names hold what they held. -/
def Directory.KeepsFiles (dir dir' : Directory ι) : Prop :=
  ∀ e id, ¬ e.IsTemp → dir.entry e = some (.file id) → dir'.contents id = dir.contents id

/-- The agent writes to a file. -/
def Event.Writes (id : FileId ι) : Event ι → Prop
  | .agent (.write id' _) => id' = id
  | _ => False

instance (id : FileId ι) (event : Event ι) : Decidable (event.Writes id) := by
  unfold Event.Writes
  split <;> infer_instance

/-- A file of a launch that it no longer writes. -/
def Done (s : Profile ι) (i : ι) (n : ℕ) : Prop :=
  n < s.counter i ∧ (s.phase i).writing ≠ some n

section

variable {dir : Directory ι} {i j : ι} {pid counter counter' : ℕ} {action : Action}
  {phase phase' : Phase} {effect : Effect ι}

/-- What a launch does to a name is done to its temporary one, or to one that was free. -/
theorem Change.keepsNames (hchange : Change dir pid counter action phase phase' counter' effect) :
    dir.KeepsNames (effect.apply i dir) := by
  intro e node hplain he
  cases hchange with
  | quiet | append | keep => exact he
  | @create d =>
    have hT : e ≠ d.temp pid counter := fun heq => hplain (heq ▸ d.temp_isTemp pid counter)
    exact (Function.update_of_ne hT _ _).trans he
  | link _ hfree =>
    refine (Function.update_of_ne ?_ _ _).trans he
    rintro rfl
    rw [hfree] at he
    cases he
  | @remove d n =>
    have hT : e ≠ d.temp pid n := fun heq => hplain (heq ▸ d.temp_isTemp pid n)
    exact (Function.update_of_ne hT _ _).trans he

/-- A launch writes only to its own file, which has no such name. -/
theorem Change.keepsFiles (hchange : Change dir pid counter action phase phase' counter' effect)
    (h : SoundFor pid dir i phase counter) : dir.KeepsFiles (effect.apply i dir) := by
  intro e id hplain he
  cases hchange with
  | quiet | link | remove | keep => rfl
  | @create d =>
    refine Function.update_of_ne ?_ _ _
    rintro rfl
    exact absurd (h.numbered counter (.inl ⟨e, he⟩)) (lt_irrefl _)
  | @append d _ _ _ n _ count =>
    refine Function.update_of_ne ?_ _ _
    rintro rfl
    exact hplain ((h.hidden n rfl).2 e he)

theorem Change.done (hchange : Change dir pid counter action phase phase' counter' effect) (i : ι)
    {n : ℕ} (hn : n < counter) (hwriting : phase.writing ≠ some n) :
    (n < counter' ∧ phase'.writing ≠ some n) ∧
      (effect.apply i dir).contents (.seed i n) = dir.contents (.seed i n) := by
  cases hchange with
  | quiet hlive hcounter hnone => exact ⟨⟨lt_of_lt_of_le hn hcounter, by simp [hnone]⟩, rfl⟩
  | create =>
    have hne : FileId.seed i n ≠ .seed i counter := by
      simpa using ne_of_lt hn
    refine ⟨⟨Nat.lt_succ_of_lt hn, ?_⟩, Function.update_of_ne hne _ _⟩
    simpa [Phase.writing] using (ne_of_lt hn).symm
  | @append _ _ _ _ m =>
    have hne : FileId.seed i n ≠ .seed i m := by
      simpa [Phase.writing, eq_comm] using hwriting
    exact ⟨⟨hn, hwriting⟩, Function.update_of_ne hne _ _⟩
  | link => exact ⟨⟨hn, by simp [Phase.writing]⟩, rfl⟩
  | remove | keep => exact ⟨⟨hn, by simp⟩, rfl⟩

/-- The effect of another launch leaves a launch's files. -/
theorem Effect.contents_other (hij : i ≠ j) (effect : Effect ι) (n : ℕ) :
    (effect.apply j dir).contents (.seed i n) = dir.contents (.seed i n) := by
  have hne (m : ℕ) : FileId.seed i n ≠ .seed j m := by simp [hij]
  cases effect with
  | create e m => exact Function.update_of_ne (hne m) _ _
  | append m octets => exact Function.update_of_ne (hne m) _ _
  | none => rfl
  | link node e => rfl
  | remove e => rfl

/-- The agent changes no file but those that it writes or creates. -/
theorem contents_agent {dir' : Directory ι} {agent : AgentAction ι} (h : agent.apply dir = some dir')
    {n : ℕ} (hwrites : ¬ (Event.agent agent).Writes (.seed i n)) :
    dir'.contents (.seed i n) = dir.contents (.seed i n) := by
  cases agent with
  | put e contents =>
    obtain rfl := Option.some.inj h
    have hne : FileId.seed i n ≠ .agent dir.created := by simp
    exact Function.update_of_ne hne contents _
  | other e => exact Option.some.inj h ▸ rfl
  | link e e' => exact Option.some.inj h ▸ rfl
  | remove e => exact Option.some.inj h ▸ rfl
  | «open» e =>
    unfold AgentAction.apply at h
    simp only at h
    split at h
    · exact Option.some.inj h ▸ rfl
    · cases h
  | write id contents =>
    obtain ⟨-, hdir⟩ := Option.ite_none_right_eq_some.mp h
    obtain rfl := Option.some.inj hdir
    exact Function.update_of_ne (fun heq => hwrites heq.symm) _ _

end

section

variable {withoutKeys : List Bytes → Bytes → Option Bytes} {pid : ι → ℕ} {seeds : ι → List Seed}
  {s₀ s s' : Profile ι} {events : List (Event ι)} {i : ι} {action : Action}

/-- **No step of a launch replaces a destination**, whatever the agent does. -/
theorem seeding_replaces_none
    (h : seedStep withoutKeys pid seeds s (.launch i action) = some s') : s.dir.KeepsNames s'.dir := by
  obtain ⟨phase, counter, effect, hchange, rfl⟩ := launch_cases h
  exact hchange.keepsNames

/-- **No step of a launch modifies a destination.** -/
theorem seeding_keeps (hs : Sound pid s)
    (h : seedStep withoutKeys pid seeds s (.launch i action) = some s') : s.dir.KeepsFiles s'.dir := by
  obtain ⟨phase, counter, effect, hchange, rfl⟩ := launch_cases h
  exact hchange.keepsFiles (hs i)

/-- A file that its launch no longer writes changes only when the agent writes to it. -/
theorem done_step {event : Event ι} {n : ℕ} (h : seedStep withoutKeys pid seeds s event = some s')
    (hdone : Done s i n) (hagent : ¬ event.Writes (.seed i n)) :
    Done s' i n ∧ s'.dir.contents (.seed i n) = s.dir.contents (.seed i n) := by
  cases event with
  | launch j action =>
    obtain ⟨phase, counter, effect, hchange, rfl⟩ := launch_cases h
    by_cases hij : i = j
    · subst hij
      obtain ⟨hdone', hcontents⟩ := hchange.done i hdone.1 hdone.2
      exact ⟨by simpa [Done] using hdone', hcontents⟩
    · exact ⟨by simpa [Done, hij] using hdone, effect.contents_other hij n⟩
  | agent agent =>
    obtain ⟨dir, hdir, rfl⟩ := agent_cases h
    exact ⟨hdone, contents_agent hdir hagent⟩

theorem done_run {n : ℕ} (hagent : ∀ event ∈ events, ¬ event.Writes (.seed i n))
    (h : run (seedStep withoutKeys pid seeds) s events = some s') (hdone : Done s i n) :
    s'.dir.contents (.seed i n) = s.dir.contents (.seed i n) := by
  have hkept : Done s' i n ∧ s'.dir.contents (.seed i n) = s.dir.contents (.seed i n) :=
    run_invariant_where (P := fun t => Done t i n ∧ t.dir.contents (.seed i n) = s.dir.contents (.seed i n))
      (fun hallowed hstep ht => ⟨(done_step hstep ht.1 hallowed).1,
        (done_step hstep ht.1 hallowed).2.trans ht.2⟩) (runWhere_of_mem s hagent) h ⟨hdone, rfl⟩
  exact hkept.2

/-- **A destination that a launch creates holds all that the launch made of the host's file it read**, from
that step on and as long as the agent does not write to the file. -/
theorem seeding_publishes (hstart : s₀.Initial)
    (hrun : run (seedStep withoutKeys pid seeds) s₀ events = some s) (hs : Sound pid s)
    (h : seedStep withoutKeys pid seeds s (.launch i action) = some s') {e : Entry} {node : Node ι}
    (hplain : ¬ e.IsTemp) (hfree : s.dir.entry e = none) (he : s'.dir.entry e = some node) :
    ∃ id d contents, node = .file id ∧ d.entry = e ∧
      Made withoutKeys pid seeds s₀ events i d contents ∧
      ∀ later t, run (seedStep withoutKeys pid seeds) s' later = some t →
        (∀ event ∈ later, ¬ event.Writes id) → t.dir.contents id = contents := by
  obtain ⟨phase, counter, effect, hchange, rfl⟩ := launch_cases h
  have hsi := hs i
  have hmade {d : Seed} {contents : Bytes} (hcarried : (s.phase i).carried = some (d, contents)) :=
    made_run hstart hrun i hcarried
  generalize hphase : s.phase i = old at hchange hsi hmade
  generalize hcounter : s.counter i = number at hchange hsi
  have hnew {e' : Entry} {node' : Option (Node ι)}
      (he' : Function.update s.dir.entry e' node' e = some node) : e = e' ∧ node' = some node := by
    rcases update_eq_some_iff.mp he' with hnew | ⟨-, hold⟩
    · exact hnew
    · exact absurd (hfree.symm.trans hold) nofun
  cases hchange with
  | quiet | append | keep => exact absurd (hfree.symm.trans he) nofun
  | @create d => exact absurd ((hnew he).1 ▸ d.temp_isTemp (pid i) number) hplain
  | @remove d n => exact absurd ((hnew he).1 ▸ d.temp_isTemp (pid i) n) hplain
  | @link d rest contents tries n node' htemp =>
    obtain ⟨rfl, hnode⟩ := hnew he
    obtain rfl := Option.some.inj hnode
    obtain rfl := Option.some.inj (htemp.symm.trans (hsi.held d n rfl))
    refine ⟨.seed i n, d, contents, rfl, rfl, hmade rfl, fun later t ht hagent => ?_⟩
    have hdone := hsi.numbered n (.inl ⟨_, hsi.held d n rfl⟩)
    rw [done_run hagent ht (by simpa [Done, Phase.writing] using hdone)]
    have hwritten := hsi.written d rest contents tries n [] rfl
    rwa [List.append_nil] at hwritten

omit [DecidableEq ι] in
/-- **A launch that has finished left no temporary file** when it could remove those it made. -/
theorem seeding_cleans_up {ok : Bool} (htidy : TidyFor (pid i) s.dir i (s.phase i))
    (h : s.phase i = .finished ok) {e : Entry} (htemp : e.IsTemp) (n : ℕ) :
    s.dir.entry e ≠ some (.file (.seed i n)) := by
  intro he
  rw [h] at htidy
  rcases htidy e n he htemp with hcrashed | ⟨d, hd, -⟩
  · cases hcrashed
  · cases hd

/-- **Seeding is once-only and all-or-nothing.** In every state that launches and the agent reach, no step
of a launch changes what a destination stands for. Beside an agent that leaves the temporary names alone,
no step changes what is in a destination either, what a launch publishes is all that it made of the host's
file and stays so until the agent writes to it, and a launch that has finished left no temporary file
unless its removal failed. -/
theorem seed_publication (hstart : s₀.Initial)
    (hrun : run (seedStep withoutKeys pid seeds) s₀ events = some s) :
    (∀ i action s', seedStep withoutKeys pid seeds s (.launch i action) = some s' →
      s.dir.KeepsNames s'.dir) ∧
    ((∀ event ∈ events, event.Respects) →
      (∀ i action s', seedStep withoutKeys pid seeds s (.launch i action) = some s' →
        s.dir.KeepsFiles s'.dir ∧
        ∀ e node, ¬ e.IsTemp → s.dir.entry e = none → s'.dir.entry e = some node →
          ∃ id d contents, node = .file id ∧ d.entry = e ∧
            Made withoutKeys pid seeds s₀ events i d contents ∧
            ∀ later t, run (seedStep withoutKeys pid seeds) s' later = some t →
              (∀ event ∈ later, ¬ event.Writes id) → t.dir.contents id = contents) ∧
      ∀ i ok, s.phase i = .finished ok → .launch i (.drop false) ∉ events → ∀ e, e.IsTemp → ∀ n,
        s.dir.entry e ≠ some (.file (.seed i n))) := by
  refine ⟨fun i action s' h => seeding_replaces_none h, fun hrespects => ?_⟩
  have hs := sound_run hstart hrun hrespects
  refine ⟨fun i action s' h => ⟨seeding_keeps hs h, fun e node hplain hfree he => ?_⟩,
    fun i ok h hremoved e htemp n => ?_⟩
  · exact seeding_publishes hstart hrun hs h hplain hfree he
  · exact seeding_cleans_up (tidy_run hstart hrun hrespects hremoved) h htemp n

end

end

/-! ## A race, and what is left of one -/

/-- `settings.json` in a directory. -/
def settingsSeed : Seed := ⟨⟨ascii "/state/pi", ascii "settings.json"⟩, by decide +kernel, .bytes⟩

/-- A directory without files. -/
def emptyProfile : Profile Bool where
  dir := { entry := fun _ => none, contents := fun _ => [], opened := fun _ => false, created := 0 }
  phase := fun _ => .waiting
  counter := fun _ => 0

theorem initial_emptyProfile : emptyProfile.Initial :=
  ⟨fun _ => rfl, fun _ _ _ h => absurd h nofun, fun _ _ => rfl⟩

/-- Two launches that seed the file. -/
abbrev settingsStep : Profile Bool → Event Bool → Option (Profile Bool) :=
  seedStep (fun _ _ => none) (fun i => if i then 8 else 7) fun _ => [settingsSeed]

/-- Both find the file missing and write what they read, and the agent makes a file of its own. -/
def seedRace : List (Event Bool) :=
  [.launch false .start, .launch true .start, .launch false .look, .launch true .look,
    .launch false (.read (some [97, 98])), .launch true (.read (some [99])), .launch false .create,
    .agent (.put ⟨ascii "/state/pi", ascii "auth.json"⟩ [1]), .launch true .create,
    .launch false (.write 1), .launch true (.write 1)]

/-- The launch that did not publish finds the file there. -/
def seedRaceEnd : List (Event Bool) :=
  [.launch false (.write 1), .launch false .link, .launch false .recheck, .launch false (.drop true),
    .launch false .look]

/-- The launch that publishes first is the one whose contents the file has, and the other one finishes and
leaves nothing. -/
theorem seed_publication_race : ∃ s s' t, run settingsStep emptyProfile seedRace = some s ∧
    settingsStep s (.launch true .link) = some s' ∧ run settingsStep s' seedRaceEnd = some t ∧
      t.dir.entry settingsSeed.entry = some (.file (.seed true 0)) ∧
      (∃ d, d.entry = settingsSeed.entry ∧
        Made (fun _ _ => none) (fun i => if i then 8 else 7) (fun _ => [settingsSeed]) emptyProfile
          seedRace true d [99] ∧ t.dir.contents (.seed true 0) = [99]) ∧
      ∀ e, e.IsTemp → ∀ n, t.dir.entry e ≠ some (.file (.seed false n)) := by
  have heval : (run settingsStep emptyProfile seedRace).any (fun s =>
      s.dir.entry settingsSeed.entry = none && (settingsStep s (.launch true .link)).any fun s' =>
        s'.dir.entry settingsSeed.entry = some (.file (.seed true 0)) &&
          (run settingsStep s' seedRaceEnd).any fun t => t.phase false = .finished true &&
            (t.dir.entry settingsSeed.entry = some (.file (.seed true 0)) &&
              t.dir.contents (.seed true 0) = [99])) = true := by
    decide +kernel
  simp only [Option.any_eq_true, Bool.and_eq_true, decide_eq_true_eq] at heval
  obtain ⟨s, hrun, hfree, s', hlink, hnamed, t, hend, hfinished, hkept, hcontents⟩ := heval
  have hwhole : run settingsStep emptyProfile (seedRace ++ .launch true .link :: seedRaceEnd) = some t := by
    rw [run_append, hrun, Option.bind_some, run, hlink, Option.bind_some, hend]
  obtain ⟨-, hpublish⟩ := seed_publication initial_emptyProfile hrun
  obtain ⟨-, hclean⟩ := seed_publication initial_emptyProfile hwhole
  have hstep := ((hpublish (by decide +kernel)).1 true .link s' hlink).2
  obtain ⟨id, d, contents, hnode, hentry, hmade, hlater⟩ :=
    hstep settingsSeed.entry _ settingsSeed.plain hfree hnamed
  obtain rfl := Node.file.inj hnode
  obtain rfl : [99] = contents := hcontents.symm.trans (hlater seedRaceEnd t hend (by decide +kernel))
  refine ⟨s, s', t, hrun, hlink, hend, hkept, ⟨d, hentry, hmade, hcontents⟩, ?_⟩
  exact (hclean (by decide +kernel)).2 false true hfinished (by simp [seedRace, seedRaceEnd])

/-- A launch that publishes and cannot remove its temporary file. -/
def seedUnremoved : List (Event Bool) :=
  [.launch false .start, .launch false .look, .launch false (.read (some [97])), .launch false .create,
    .launch false (.write 1), .launch false .link, .launch false (.drop false), .launch false .look]

/-- An agent that empties the temporary file before it is linked. -/
def seedEmptied : List (Event Bool) :=
  [.launch false .start, .launch false .look, .launch false (.read (some [97])), .launch false .create,
    .launch false (.write 1), .agent (.open (settingsSeed.temp 7 0)),
    .agent (.write (.seed false 0) []), .launch false .link]

/-- **A temporary file can outlive a launch that finishes**, and what is published can be other than what
was read: the removal of a temporary file may fail, and the agent can open one. -/
theorem seeding_disturbed :
    (∃ s, run settingsStep emptyProfile seedUnremoved = some s ∧ s.phase false = .finished true ∧
      s.dir.entry (settingsSeed.temp 7 0) = some (.file (.seed false 0))) ∧
    ∃ s, run settingsStep emptyProfile seedEmptied = some s ∧
      s.dir.entry settingsSeed.entry = some (.file (.seed false 0)) ∧
      s.dir.contents (.seed false 0) ≠ [97] := by
  have hunremoved : (run settingsStep emptyProfile seedUnremoved).any (fun s =>
      s.phase false = .finished true &&
        s.dir.entry (settingsSeed.temp 7 0) = some (.file (.seed false 0))) = true := by
    decide +kernel
  have hemptied : (run settingsStep emptyProfile seedEmptied).any (fun s =>
      s.dir.entry settingsSeed.entry = some (.file (.seed false 0)) &&
        decide (s.dir.contents (.seed false 0) ≠ [97])) = true := by
    decide +kernel
  simp only [Option.any_eq_true, Bool.and_eq_true, decide_eq_true_eq] at hunremoved hemptied
  exact ⟨hunremoved, hemptied⟩

end Vhrn.Cli.Seeding
