import Vhrn.Foundations.Runs
import Mathlib.Logic.Function.Basic

/-!
# Reading, changing and writing back without a lock

Several parties change one shared map, each by reading it, changing its own key in the copy and
writing the copy back. A write builds on what its party read, that on what an earlier party wrote, and
so on: the parties that the current value builds on are its `lineage`, which depends only on the order
of the reads and writes. `built_run` says what the value is, and `kept_iff` that nothing was
lost exactly when every party that finished is part of the lineage or changed nothing.
-/

namespace Vhrn.ReadModifyWrite

variable {ι κ ν : Type*} [DecidableEq ι] [DecidableEq κ]

/-- What a party sets its key to, `none` to remove it. -/
structure Update (κ ν : Type*) where
  key : κ
  value : Option ν

/-- A map with one key set. -/
def Update.apply (u : Update κ ν) (m : κ → Option ν) : κ → Option ν := Function.update m u.key u.value

/-- A party reads the map, or fails to and goes on with the empty one; or it writes its copy back. -/
inductive Move (ι : Type*)
  | read (i : ι) (ok : Bool)
  | write (i : ι)
  deriving DecidableEq

/-- The shared map, the copies that are not written back yet, and who has written. -/
structure Shared (ι κ ν : Type*) where
  value : κ → Option ν
  copies : ι → Option (κ → Option ν)
  done : ι → Bool

def Shared.start (m : κ → Option ν) : Shared ι κ ν := ⟨m, fun _ => none, fun _ => false⟩

/-- Every party reads once and writes once, in this order. -/
def step (updates : ι → Update κ ν) (s : Shared ι κ ν) : Move ι → Option (Shared ι κ ν)
  | .read i ok =>
    if s.copies i = none ∧ s.done i = false then
      some { s with copies := Function.update s.copies i
                      (some (if ok then s.value else fun _ => none)) }
    else none
  | .write i =>
    match s.copies i with
    | none => none
    | some m => some { value := (updates i).apply m
                       copies := Function.update s.copies i none
                       done := Function.update s.done i true }

/-- The parties whose writes the value builds on, the last one first, and those that every copy builds
on. -/
structure Lineage (ι : Type*) where
  current : List ι
  seen : ι → List ι

def Lineage.after (l : Lineage ι) : Move ι → Lineage ι
  | .read i _ => { l with seen := Function.update l.seen i l.current }
  | .write i => { l with current := i :: l.seen i }

/-- The parties that the value builds on after some moves. -/
def lineage (ms : List (Move ι)) : List ι :=
  (ms.foldl Lineage.after ⟨[], fun _ => []⟩).current

/-- A failed read that leaves nothing out: the map holds no key but the party's own. -/
def Harmless (updates : ι → Update κ ν) (s : Shared ι κ ν) : Move ι → Prop
  | .read i false => ∀ k, k ≠ (updates i).key → s.value k = none
  | _ => True

/-- A map with the updates of some parties. -/
def built (updates : ι → Update κ ν) (m : κ → Option ν) (parties : List ι) (k : κ) : Option ν :=
  match parties.find? fun i => (updates i).key = k with
  | some i => (updates i).value
  | none => m k

section

variable {updates : ι → Update κ ν} {m : κ → Option ν}

omit [DecidableEq ι] in
theorem built_cons (i : ι) (parties : List ι) (k : κ) : built updates m (i :: parties) k =
    if k = (updates i).key then (updates i).value else built updates m parties k := by
  unfold built
  rw [List.find?_cons]
  by_cases h : (updates i).key = k
  · simp [h]
  · simp [h, Ne.symm h]

omit [DecidableEq ι] in
/-- An update that was built in is what its key holds. -/
theorem built_key (hkeys : Function.Injective fun i => (updates i).key) {parties : List ι} {i : ι}
    (hi : i ∈ parties) : built updates m parties (updates i).key = (updates i).value := by
  induction parties with
  | nil => exact absurd hi List.not_mem_nil
  | cons j parties ih =>
    rw [built_cons]
    by_cases hkey : (updates i).key = (updates j).key
    · obtain rfl := hkeys hkey
      rw [if_pos rfl]
    · rw [if_neg hkey]
      refine ih ((List.mem_cons.mp hi).resolve_left ?_)
      rintro rfl
      exact hkey rfl

omit [DecidableEq ι] in
/-- A key of no party that was built in holds what it held. -/
theorem built_other {parties : List ι} {k : κ} (hk : ∀ i ∈ parties, (updates i).key ≠ k) :
    built updates m parties k = m k := by
  induction parties with
  | nil => rfl
  | cons j parties ih =>
    rw [built_cons, if_neg (hk j List.mem_cons_self).symm]
    exact ih fun i hi => hk i (List.mem_cons_of_mem j hi)

/-- What the value and the copies are built on. -/
structure Built (updates : ι → Update κ ν) (m : κ → Option ν) (s : Shared ι κ ν) (l : Lineage ι) :
    Prop where
  value : s.value = built updates m l.current
  done : ∀ i ∈ l.current, s.done i = true
  copies : ∀ i copy, s.copies i = some copy →
    (∀ k, k ≠ (updates i).key → copy k = built updates m (l.seen i) k) ∧
      ∀ j ∈ l.seen i, s.done j = true

theorem built_step {s s' : Shared ι κ ν} {move : Move ι} {l : Lineage ι}
    (hharmless : Harmless updates s move) (hstep : step updates s move = some s')
    (h : Built updates m s l) : Built updates m s' (l.after move) := by
  cases move with
  | read i ok =>
    obtain ⟨-, hs'⟩ := Option.ite_none_right_eq_some.mp hstep
    obtain rfl := Option.some.inj hs'
    refine ⟨h.value, h.done, fun j copy hj => ?_⟩
    by_cases hji : j = i
    · subst hji
      simp only [Function.update_self, Option.some.injEq] at hj
      obtain rfl := hj
      simp only [Lineage.after, Function.update_self]
      refine ⟨fun k hk => ?_, h.done⟩
      cases ok with
      | true => exact congrFun h.value k
      | false => exact (hharmless k hk).symm.trans (congrFun h.value k)
    · simp only [Function.update_of_ne hji] at hj
      simp only [Lineage.after, Function.update_of_ne hji]
      exact h.copies j copy hj
  | write i =>
    unfold step at hstep
    simp only at hstep
    split at hstep
    · cases hstep
    · rename_i copy hcopy
      obtain rfl := Option.some.inj hstep
      obtain ⟨hbuilt, hseen⟩ := h.copies i copy hcopy
      have hdone {j : ι} (hj : s.done j = true) : Function.update s.done i true j = true := by
        by_cases hji : j = i
        · rw [hji, Function.update_self]
        · rwa [Function.update_of_ne hji]
      refine ⟨?_, fun j hj => ?_, fun j copy' hj => ?_⟩
      · funext k
        simp only [Lineage.after, built_cons, Update.apply]
        by_cases hk : k = (updates i).key
        · rw [if_pos hk, hk, Function.update_self]
        · rw [if_neg hk, Function.update_of_ne hk, hbuilt k hk]
      · rcases List.mem_cons.mp hj with rfl | hj
        · exact Function.update_self ..
        · exact hdone (hseen j hj)
      · by_cases hji : j = i
        · simp [hji] at hj
        · simp only [Function.update_of_ne hji] at hj
          obtain ⟨hbuilt', hseen'⟩ := h.copies j copy' hj
          exact ⟨hbuilt', fun j' hj' => hdone (hseen' j' hj')⟩

theorem built_run {s s' : Shared ι κ ν} {ms : List (Move ι)} {l : Lineage ι}
    (hharmless : RunWhere (step updates) (Harmless updates) s ms)
    (hrun : run (step updates) s ms = some s') (h : Built updates m s l) :
    Built updates m s' (ms.foldl Lineage.after l) := by
  induction ms generalizing s l with
  | nil => exact Option.some.inj hrun ▸ h
  | cons move ms ih =>
    obtain ⟨s₁, hstep, hrest⟩ := run_cons_eq_some.mp hrun
    exact ih (hharmless.2 s₁ hstep) hrest (built_step hharmless.1 hstep h)

omit [DecidableEq ι] in
theorem built_start : Built updates m (Shared.start m) ⟨[], fun _ => []⟩ :=
  ⟨rfl, fun _ h => absurd h List.not_mem_nil, fun _ _ h => absurd h nofun⟩

/-- Every party that has written finds its update in the map, and every other key holds what it held. -/
structure Kept (updates : ι → Update κ ν) (m : κ → Option ν) (s : Shared ι κ ν) : Prop where
  updated : ∀ i, s.done i = true → s.value (updates i).key = (updates i).value
  others : ∀ k, (∀ i, s.done i = true → (updates i).key ≠ k) → s.value k = m k

/-- **Nothing was lost exactly when the map builds on every party that has written and changed
something.** -/
theorem kept_iff (hkeys : Function.Injective fun i => (updates i).key) {s : Shared ι κ ν}
    {ms : List (Move ι)} (hharmless : RunWhere (step updates) (Harmless updates) (.start m) ms)
    (hrun : run (step updates) (.start m) ms = some s) :
    Kept updates m s ↔
      ∀ i, s.done i = true → i ∈ lineage ms ∨ m (updates i).key = (updates i).value := by
  have h := built_run hharmless hrun built_start
  have hvalue : s.value = built updates m (lineage ms) := h.value
  constructor
  · intro hkept i hi
    by_cases hmem : i ∈ lineage ms
    · exact .inl hmem
    · refine .inr ?_
      have hother : ∀ j ∈ lineage ms, (updates j).key ≠ (updates i).key := by
        intro j hj hkey
        exact hmem (hkeys hkey ▸ hj)
      have hupdated := hkept.updated i hi
      rwa [hvalue, built_other hother] at hupdated
  · intro hcond
    refine ⟨fun i hi => ?_, fun k hk => ?_⟩
    · by_cases hmem : i ∈ lineage ms
      · rw [hvalue]
        exact built_key hkeys hmem
      · have hother : ∀ j ∈ lineage ms, (updates j).key ≠ (updates i).key := by
          intro j hj hkey
          exact hmem (hkeys hkey ▸ hj)
        rw [hvalue]
        exact (built_other hother).trans ((hcond i hi).resolve_left hmem)
    · rw [hvalue]
      exact built_other fun i hi => hk i (h.done i hi)

end

end Vhrn.ReadModifyWrite
