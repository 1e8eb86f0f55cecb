import Mathlib.Control.Basic
import Mathlib.Data.List.Forall2

/-!
# Invariants of failing computations over a state

A computation over a state that may fail keeps the state it has reached when it does. `Keeps P m` says
that `m` preserves the invariant `P`, whether it succeeds or fails; the rules are those of the monad's
operations, so an invariant of a program follows from the same invariant of its writes.
-/

namespace Vhrn

universe u

variable {σ ε α β : Type u} {P : σ → Prop}

/-- Mapping succeeds when every element does. -/
theorem mapM_eq_ok {f : α → Except ε β} {as : List α} {bs : List β} :
    as.mapM f = .ok bs ↔ List.Forall₂ (fun a b => f a = .ok b) as bs := by
  induction as generalizing bs with
  | nil =>
    rw [List.mapM_nil, List.forall₂_nil_left_iff, eq_comm]
    exact ⟨fun h => Except.ok.inj h, fun h => congrArg Except.ok h⟩
  | cons a as ih =>
    rw [List.mapM_cons, List.forall₂_cons_left_iff]
    constructor
    · intro h
      cases ha : f a with
      | error e => rw [ha] at h; cases h
      | ok b =>
        cases has : as.mapM f with
        | error e => simp only [ha, has, bind, Except.bind] at h; cases h
        | ok bs' =>
          simp only [ha, has, bind, Except.bind] at h
          exact ⟨b, bs', rfl, ih.mp has, (Except.ok.inj h).symm⟩
    · rintro ⟨b, bs', hb, h, rfl⟩
      rw [hb, ih.mpr h]
      rfl

theorem exists_left_of_forall₂ {R : α → β → Prop} {as : List α} {bs : List β}
    (h : List.Forall₂ R as bs) {b : β} (hb : b ∈ bs) : ∃ a ∈ as, R a b := by
  induction h with
  | nil => cases hb
  | cons hab _ ih =>
    rcases List.mem_cons.mp hb with rfl | hb
    · exact ⟨_, List.mem_cons_self, hab⟩
    · obtain ⟨a, ha, hab⟩ := ih hb
      exact ⟨a, List.mem_cons_of_mem _ ha, hab⟩

theorem exists_right_of_forall₂ {R : α → β → Prop} {as : List α} {bs : List β}
    (h : List.Forall₂ R as bs) {a : α} (ha : a ∈ as) : ∃ b ∈ bs, R a b :=
  exists_left_of_forall₂ h.flip ha

theorem exists_of_mapM_eq_ok {f : α → Except ε β} {as : List α} {bs : List β}
    (h : as.mapM f = .ok bs) {b : β} (hb : b ∈ bs) : ∃ a ∈ as, f a = .ok b :=
  exists_left_of_forall₂ (mapM_eq_ok.mp h) hb

theorem exists_ok_of_mapM_eq_ok {f : α → Except ε β} {as : List α} {bs : List β}
    (h : as.mapM f = .ok bs) {a : α} (ha : a ∈ as) : ∃ b ∈ bs, f a = .ok b :=
  exists_right_of_forall₂ (mapM_eq_ok.mp h) ha

/-- A computation that may fail and keeps its state when it does. -/
abbrev StateExcept (σ ε : Type u) := ExceptT ε (StateM σ)

/-- The outcome of a run and the state it leaves. -/
def StateExcept.exec (m : StateExcept σ ε α) (s : σ) : Except ε α × σ := m.run.run s

theorem exec_bind (m : StateExcept σ ε α) (f : α → StateExcept σ ε β) (s : σ) :
    (m >>= f).exec s = match m.exec s with
      | (.ok a, s') => (f a).exec s'
      | (.error e, s') => (.error e, s') := by
  unfold StateExcept.exec
  rw [ExceptT.run_bind, StateT.run_bind]
  rcases m.run.run s with ⟨a | e, s'⟩ <;> rfl

/-- A sequence succeeds when both parts do. -/
theorem exec_bind_eq_ok {m : StateExcept σ ε α} {f : α → StateExcept σ ε β} {s s'' : σ} {b : β} :
    (m >>= f).exec s = (.ok b, s'') ↔
      ∃ a s', m.exec s = (.ok a, s') ∧ (f a).exec s' = (.ok b, s'') := by
  rw [exec_bind]
  rcases m.exec s with ⟨e | a, s'⟩
  · constructor
    · intro h
      cases h
    · rintro ⟨_, _, ⟨⟩, _⟩
  · constructor
    · exact fun h => ⟨a, s', rfl, h⟩
    · rintro ⟨_, _, ⟨⟩, h⟩
      exact h

/-- An outcome that is lifted leaves the state alone. -/
theorem exec_liftExcept_eq_ok {x : Except ε α} {s s' : σ} {a : α} :
    (liftM x : StateExcept σ ε α).exec s = (.ok a, s') ↔ x = .ok a ∧ s' = s := by
  cases x with
  | error e =>
    constructor
    · rintro ⟨⟩
    · rintro ⟨⟨⟩, -⟩
  | ok b =>
    constructor
    · rintro ⟨⟩
      exact ⟨rfl, rfl⟩
    · rintro ⟨⟨⟩, rfl⟩
      rfl

/-- The computation preserves the invariant. -/
def Keeps (P : σ → Prop) (m : StateExcept σ ε α) : Prop := ∀ s, P s → P (m.exec s).2

namespace Keeps

theorem pure (a : α) : Keeps P (Pure.pure a : StateExcept σ ε α) := fun _ h => h

theorem throw (e : ε) : Keeps P (MonadExcept.throw e : StateExcept σ ε α) := fun _ h => h

theorem get : Keeps P (MonadState.get : StateExcept σ ε σ) := fun _ h => h

theorem modify {f : σ → σ} (hf : ∀ s, P s → P (f s)) :
    Keeps P (modify f : StateExcept σ ε PUnit) := hf

theorem liftExcept (x : Except ε α) : Keeps P (liftM x : StateExcept σ ε α) := by
  cases x <;> exact fun _ h => h

theorem bind {m : StateExcept σ ε α} {f : α → StateExcept σ ε β} (hm : Keeps P m)
    (hf : ∀ a, Keeps P (f a)) : Keeps P (m >>= f) := by
  intro s hs
  have hms := hm s hs
  rw [exec_bind]
  rcases hm' : m.exec s with ⟨a | e, s'⟩
  · rw [hm'] at hms
    exact hms
  · rw [hm'] at hms
    exact hf _ s' hms

/-- After a value that is computed apart from the state, the continuation may use how it came about. -/
theorem liftExcept_bind {x : Except ε α} {f : α → StateExcept σ ε β}
    (hf : ∀ a, x = .ok a → Keeps P (f a)) :
    Keeps P ((liftM x : StateExcept σ ε α) >>= f) := by
  cases x with
  | error e => exact fun _ h => h
  | ok a => exact hf a rfl

/-- Reading the state first: the continuation may use the invariant of the state it read. -/
theorem get_bind {f : σ → StateExcept σ ε β} (hf : ∀ s, P s → Keeps P (f s)) :
    Keeps P (MonadState.get >>= f) := fun s hs => hf s hs s hs

theorem set {s : σ} (h : P s) : Keeps P (MonadStateOf.set s : StateExcept σ ε PUnit) := fun _ _ => h

theorem ite {c : Prop} [Decidable c] {m m' : StateExcept σ ε α} (hm : Keeps P m)
    (hm' : Keeps P m') : Keeps P (if c then m else m') := by
  split
  · exact hm
  · exact hm'

theorem mapM {f : α → StateExcept σ ε β} (hf : ∀ a, Keeps P (f a)) (as : List α) :
    Keeps P (as.mapM f) := by
  induction as with
  | nil => exact pure []
  | cons a as ih =>
    rw [List.mapM_cons]
    exact bind (hf a) fun _ => bind ih fun _ => pure _

/-- A computation that keeps every invariant leaves the state alone. -/
theorem eq_of_exec {m : StateExcept σ ε α} (hm : ∀ P : σ → Prop, Keeps P m) {s s' : σ}
    {r : Except ε α} (h : m.exec s = (r, s')) : s' = s := by
  have hk := hm (· = s) s rfl
  rwa [h] at hk

/-- What a map over elements returns are the results of its elements. -/
theorem forall₂_of_exec_mapM {f : α → StateExcept σ ε β} (hf : ∀ P a, Keeps P (f a)) {as : List α}
    {bs : List β} {s s' : σ} (h : (as.mapM f).exec s = (.ok bs, s')) :
    List.Forall₂ (fun a b => (f a).exec s = (.ok b, s)) as bs := by
  induction as generalizing bs s' with
  | nil =>
    obtain ⟨⟩ := h
    exact .nil
  | cons a as ih =>
    rw [List.mapM_cons, exec_bind_eq_ok] at h
    obtain ⟨b', s₁, hfa, h⟩ := h
    obtain rfl := eq_of_exec (fun P => hf P a) hfa
    rw [exec_bind_eq_ok] at h
    obtain ⟨bs', s₂, hfas, h⟩ := h
    obtain ⟨⟩ := h
    exact .cons hfa (ih hfas)

theorem exists_of_exec_mapM {f : α → StateExcept σ ε β} (hf : ∀ P a, Keeps P (f a)) {as : List α}
    {bs : List β} {s s' : σ} (h : (as.mapM f).exec s = (.ok bs, s')) {b : β} (hb : b ∈ bs) :
    ∃ a ∈ as, (f a).exec s = (.ok b, s) :=
  exists_left_of_forall₂ (forall₂_of_exec_mapM hf h) hb

end Keeps

/-- Whenever the computation fails, it leaves a state with the property. -/
def KeepsOnError (P : σ → Prop) (m : StateExcept σ ε α) : Prop :=
  ∀ s, P s → ∀ e s', m.exec s = (.error e, s') → P s'

namespace KeepsOnError

theorem of_keeps {m : StateExcept σ ε α} (hm : Keeps P m) : KeepsOnError P m := by
  intro s hs e s' h
  have hkeep := hm s hs
  rwa [h] at hkeep

theorem modify {f : σ → σ} : KeepsOnError P (modify f : StateExcept σ ε PUnit) := by
  intro s _ e s' h
  cases h

/-- Only the last part may change what is to be kept, and only when it succeeds. -/
theorem bind {m : StateExcept σ ε α} {f : α → StateExcept σ ε β} (hm : Keeps P m)
    (hf : ∀ a, KeepsOnError P (f a)) : KeepsOnError P (m >>= f) := by
  intro s hs e s' h
  have hms := hm s hs
  rw [exec_bind] at h
  rcases hm' : m.exec s with ⟨e' | a, s₁⟩
  · rw [hm'] at h hms
    obtain ⟨⟩ := h
    exact hms
  · rw [hm'] at h hms
    exact hf a s₁ hms e s' h

/-- What is done after the last change does not fail. -/
theorem bind_pure {m : StateExcept σ ε α} {f : α → β} (hm : KeepsOnError P m) :
    KeepsOnError P (do return f (← m)) := by
  intro s hs e s' h
  rw [exec_bind] at h
  rcases hm' : m.exec s with ⟨e' | a, s₁⟩
  · rw [hm'] at h
    obtain ⟨⟩ := h
    exact hm s hs _ _ hm'
  · rw [hm'] at h
    cases h

end KeepsOnError

end Vhrn
