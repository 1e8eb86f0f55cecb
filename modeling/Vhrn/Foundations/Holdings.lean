import Mathlib.Algebra.BigOperators.Group.Finset.Basic
import Mathlib.Data.List.Perm.Basic
import Mathlib.Tactic

/-!
# Permits, descriptors and registrations that actors hold

Actors hold permits from a counter, descriptors of sockets, and registrations of sockets in a shared
table; what an actor holds is the list of what it will drop. One use of the shared resources changes one
of these (`Use`). A use keeps the number of permits (`permits_use`), and every registration stays
answered for (`Covered.use`): its socket is in the table, in the hands of the one who took the table, or
shut down.
-/

namespace Vhrn.Holdings

/-- What an actor holds: a permit, a descriptor of a socket, or the registration of a socket. -/
inductive Held
  | permit
  | descriptor (socket : ℕ)
  | registration (id socket : ℕ)
  deriving DecidableEq

/-- The shared resources: whether new ones are refused, the permits left, the table of registered
sockets, and which of the sockets so far are shut down. -/
structure Resources where
  closed : Bool
  permits : ℕ
  table : List (ℕ × ℕ)
  nextId : ℕ
  opened : ℕ
  shut : ℕ → Bool

namespace Resources

def shutDown (r : Resources) (socket : ℕ) : Resources :=
  { r with shut := Function.update r.shut socket true }

def enter (r : Resources) (socket : ℕ) : Resources :=
  { r with table := (r.nextId, socket) :: r.table, nextId := r.nextId + 1 }

def remove (r : Resources) (id : ℕ) : Resources :=
  { r with table := r.table.filter fun p => p.1 ≠ id }

end Resources

/-- One use of the shared resources by an actor, with what it holds before and after. -/
inductive Use (r : Resources) (held : List Held) : Resources → List Held → Prop
  | keep {held' : List Held} (h : held'.Perm held) : Use r held r held'
  | acquire {held' : List Held} (hpermits : 0 < r.permits) (h : held'.Perm (.permit :: held)) :
      Use r held { r with permits := r.permits - 1 } held'
  | give {held' : List Held} (h : held.Perm (.permit :: held')) :
      Use r held { r with permits := r.permits + 1 } held'
  | open {held' : List Held} (h : held'.Perm (.descriptor r.opened :: held)) :
      Use r held { r with opened := r.opened + 1 } held'
  | close {held' : List Held} {socket : ℕ} (h : held.Perm (.descriptor socket :: held')) :
      Use r held r held'
  | shut {held' : List Held} {socket : ℕ} (h : held'.Perm held) : Use r held (r.shutDown socket) held'
  | register {held' : List Held} {socket : ℕ} (hclosed : r.closed = false)
      (h : held'.Perm (.registration r.nextId socket :: held)) : Use r held (r.enter socket) held'
  | unregister {held' : List Held} {id socket : ℕ} (h : held.Perm (.registration id socket :: held')) :
      Use r held (r.remove id) held'

/-! ## Permits -/

def permitsOf (held : List Held) : ℕ := held.count .permit

/-- **A use neither creates nor loses a permit.** -/
theorem permits_use {r r' : Resources} {held held' : List Held} (h : Use r held r' held') :
    r'.permits + permitsOf held' = r.permits + permitsOf held := by
  unfold permitsOf
  cases h with
  | keep h => rw [h.count_eq]
  | acquire hpermits h =>
    rw [h.count_eq, List.count_cons_self]
    simp only
    omega
  | give h =>
    rw [h.count_eq, List.count_cons_self]
    simp only
    omega
  | «open» h => rw [h.count_eq, List.count_cons_of_ne (by simp)]
  | close h => rw [h.count_eq, List.count_cons_of_ne (by simp)]
  | shut h => rw [h.count_eq]; rfl
  | register hclosed h => rw [h.count_eq, List.count_cons_of_ne (by simp)]; rfl
  | unregister h => rw [h.count_eq, List.count_cons_of_ne (by simp)]; rfl

theorem Use.permitsOf_le {r r' : Resources} {held held' : List Held} (h : Use r held r' held') :
    permitsOf held' ≤ permitsOf held + 1 := by
  have hkept := permits_use h
  cases h with
  | acquire hpermits h =>
    simp only at hkept
    omega
  | shut h => exact (Nat.add_left_cancel hkept).le.trans (Nat.le_succ _)
  | register hclosed h => exact (Nat.add_left_cancel hkept).le.trans (Nat.le_succ _)
  | unregister h => exact (Nat.add_left_cancel hkept).le.trans (Nat.le_succ _)
  | give h =>
    simp only at hkept
    omega
  | keep | «open» | close => exact (Nat.add_left_cancel hkept).le.trans (Nat.le_succ _)

/-! ## Registrations -/

theorem Use.closed {r r' : Resources} {held held' : List Held} (h : Use r held r' held') :
    r'.closed = r.closed := by
  cases h <;> rfl

/-- Once new resources are refused, an empty table stays empty. -/
theorem Use.table_nil {r r' : Resources} {held held' : List Held} (h : Use r held r' held')
    (hclosed : r.closed = true) (htable : r.table = []) : r'.table = [] := by
  cases h with
  | register hopen h => exact absurd (hclosed.symm.trans hopen) Bool.noConfusion
  | unregister h =>
    change r.table.filter _ = []
    rw [htable, List.filter_nil]
  | keep | acquire | give | «open» | close | shut => exact htable

section

variable {α : Type*} [DecidableEq α]

/-- Every registration has an identity of its own, and its socket is in the table, among the sockets that
were taken from the table, or shut down. The table holds nothing else. -/
structure Covered (r : Resources) (taken : List ℕ) (held : α → List Held) : Prop where
  fresh : ∀ a id socket, .registration id socket ∈ held a → id < r.nextId
  once : ∀ a id socket, (held a).count (.registration id socket) ≤ 1
  own : ∀ a b id socket socket', .registration id socket ∈ held a → .registration id socket' ∈ held b →
    a = b ∧ socket = socket'
  answered : ∀ a id socket, .registration id socket ∈ held a →
    (id, socket) ∈ r.table ∨ socket ∈ taken ∨ r.shut socket = true
  entered : ∀ id socket, (id, socket) ∈ r.table → ∃ a, .registration id socket ∈ held a

variable {r r' : Resources} {taken : List ℕ} {held : α → List Held} {a : α} {after : List Held}

omit [DecidableEq α] in
/-- Actors that hold the same registrations, of a table with the same entries in which no socket becomes
open again. -/
theorem Covered.congr {held' : α → List Held} (h : Covered r taken held)
    (hheld : ∀ a id socket, (held' a).count (.registration id socket) =
      (held a).count (.registration id socket))
    (hnext : r'.nextId = r.nextId) (htable : r'.table = r.table)
    (hshut : ∀ socket, r.shut socket = true → r'.shut socket = true) : Covered r' taken held' := by
  have hmem {a : α} {id socket : ℕ} : .registration id socket ∈ held' a ↔
      .registration id socket ∈ held a := by
    rw [← List.one_le_count_iff, ← List.one_le_count_iff, hheld]
  refine ⟨fun a id socket hm => ?_, fun a id socket => ?_, fun a b id socket socket' hm hm' => ?_,
    fun a id socket hm => ?_, fun id socket hm => ?_⟩
  · rw [hnext]
    exact h.fresh a id socket (hmem.mp hm)
  · rw [hheld]
    exact h.once a id socket
  · exact h.own a b id socket socket' (hmem.mp hm) (hmem.mp hm')
  · rw [htable]
    exact (h.answered a id socket (hmem.mp hm)).imp_right (Or.imp_right (hshut socket))
  · rw [htable] at hm
    obtain ⟨a, ha⟩ := h.entered id socket hm
    exact ⟨a, hmem.mpr ha⟩

/-- **A use keeps every registration answered for.** -/
theorem Covered.use (h : Covered r taken held) (huse : Use r (held a) r' after) :
    Covered r' taken (Function.update held a after) := by
  have hsame {id socket : ℕ} {b : α}
      (hcount : after.count (.registration id socket) = (held a).count (.registration id socket)) :
      (Function.update held a after b).count (.registration id socket) =
        (held b).count (.registration id socket) := by
    by_cases hb : b = a
    · subst hb
      rw [Function.update_self, hcount]
    · rw [Function.update_of_ne hb]
  cases huse with
  | keep hp => exact h.congr (fun b id socket => hsame (hp.count_eq _)) rfl rfl fun _ hs => hs
  | acquire _ hp =>
    refine h.congr (fun b id socket => hsame ?_) rfl rfl fun _ hs => hs
    rw [hp.count_eq, List.count_cons_of_ne (by simp)]
  | give hp =>
    refine h.congr (fun b id socket => hsame ?_) rfl rfl fun _ hs => hs
    rw [hp.count_eq, List.count_cons_of_ne (by simp)]
  | «open» hp =>
    refine h.congr (fun b id socket => hsame ?_) rfl rfl fun _ hs => hs
    rw [hp.count_eq, List.count_cons_of_ne (by simp)]
  | close hp =>
    refine h.congr (fun b id socket => hsame ?_) rfl rfl fun _ hs => hs
    rw [hp.count_eq, List.count_cons_of_ne (by simp)]
  | @shut _ s hp =>
    refine h.congr (fun b id socket => hsame (hp.count_eq _)) rfl rfl fun socket hs => ?_
    by_cases heq : socket = s
    · rw [heq]
      exact Function.update_self ..
    · exact (Function.update_of_ne heq _ _).trans hs
  | @register _ s hclosed hp =>
    have hmem {b : α} {id socket : ℕ} (hm : .registration id socket ∈ Function.update held a after b) :
        (b = a ∧ id = r.nextId ∧ socket = s) ∨ .registration id socket ∈ held b := by
      by_cases hb : b = a
      · subst hb
        rw [Function.update_self] at hm
        rcases List.mem_cons.mp (hp.mem_iff.mp hm) with heq | hm
        · exact .inl ⟨rfl, Held.registration.inj heq⟩
        · exact .inr hm
      · rw [Function.update_of_ne hb] at hm
        exact .inr hm
    have hold {b : α} {id socket : ℕ} (hm : .registration id socket ∈ held b) :
        .registration id socket ∈ Function.update held a after b := by
      by_cases hb : b = a
      · subst hb
        rw [Function.update_self]
        exact hp.mem_iff.mpr (List.mem_cons_of_mem _ hm)
      · rwa [Function.update_of_ne hb]
    have hnew {b : α} {socket : ℕ} : Held.registration r.nextId socket ∉ held b := fun hm =>
      lt_irrefl _ (h.fresh b _ socket hm)
    refine ⟨fun b id socket hm => ?_, fun b id socket => ?_, fun b c id socket socket' hm hm' => ?_,
      fun b id socket hm => ?_, fun id socket hm => ?_⟩
    · rcases hmem hm with ⟨-, rfl, -⟩ | hm
      · exact Nat.lt_succ_self _
      · exact Nat.lt_succ_of_lt (h.fresh b id socket hm)
    · by_cases hb : b = a
      · subst hb
        rw [Function.update_self, hp.count_eq, List.count_cons]
        split
        · rename_i heq
          obtain ⟨rfl, rfl⟩ := Held.registration.inj (beq_iff_eq.mp heq)
          rw [List.count_eq_zero_of_not_mem hnew]
        · exact h.once b id socket
      · rw [Function.update_of_ne hb]
        exact h.once b id socket
    · rcases hmem hm with ⟨rfl, rfl, rfl⟩ | hb
      · rcases hmem hm' with ⟨rfl, -, rfl⟩ | hc
        · exact ⟨rfl, rfl⟩
        · exact absurd hc hnew
      · rcases hmem hm' with ⟨rfl, rfl, rfl⟩ | hc
        · exact absurd hb hnew
        · exact h.own b c id socket socket' hb hc
    · rcases hmem hm with ⟨-, rfl, rfl⟩ | hm
      · exact .inl List.mem_cons_self
      · exact (h.answered b id socket hm).imp_left (List.mem_cons_of_mem _)
    · rcases List.mem_cons.mp hm with heq | hm
      · obtain ⟨rfl, rfl⟩ := Prod.mk.inj heq
        refine ⟨a, ?_⟩
        rw [Function.update_self]
        exact hp.mem_iff.mpr List.mem_cons_self
      · obtain ⟨b, hb⟩ := h.entered id socket hm
        exact ⟨b, hold hb⟩
  | @unregister _ i s hp =>
    have hin : Held.registration i s ∈ held a := hp.mem_iff.mpr List.mem_cons_self
    have hgone {socket : ℕ} : Held.registration i socket ∉ after := by
      intro hm
      obtain ⟨-, rfl⟩ := h.own a a i socket s (hp.mem_iff.mpr (List.mem_cons_of_mem _ hm)) hin
      have hcount := h.once a i socket
      rw [hp.count_eq, List.count_cons_self] at hcount
      have hpos := List.one_le_count_iff.mpr hm
      omega
    have hmem {b : α} {id socket : ℕ} (hm : .registration id socket ∈ Function.update held a after b) :
        .registration id socket ∈ held b ∧ id ≠ i := by
      by_cases hb : b = a
      · subst hb
        rw [Function.update_self] at hm
        refine ⟨hp.mem_iff.mpr (List.mem_cons_of_mem _ hm), ?_⟩
        rintro rfl
        exact hgone hm
      · rw [Function.update_of_ne hb] at hm
        refine ⟨hm, ?_⟩
        rintro rfl
        exact hb (h.own b a _ socket s hm hin).1
    refine ⟨fun b id socket hm => h.fresh b id socket (hmem hm).1, fun b id socket => ?_,
      fun b c id socket socket' hm hm' => h.own b c id socket socket' (hmem hm).1 (hmem hm').1,
      fun b id socket hm => ?_, fun id socket hm => ?_⟩
    · by_cases hb : b = a
      · subst hb
        have hcount := h.once b id socket
        rw [hp.count_eq] at hcount
        rw [Function.update_self]
        exact le_trans List.count_le_count_cons hcount
      · rw [Function.update_of_ne hb]
        exact h.once b id socket
    · obtain ⟨hm, hne⟩ := hmem hm
      exact (h.answered b id socket hm).imp_left fun ht => List.mem_filter.mpr ⟨ht, by simpa using hne⟩
    · obtain ⟨ht, hne⟩ := List.mem_filter.mp hm
      obtain ⟨b, hb⟩ := h.entered id socket ht
      refine ⟨b, ?_⟩
      by_cases hba : b = a
      · subst hba
        rw [Function.update_self]
        rcases List.mem_cons.mp (hp.mem_iff.mp hb) with heq | hb
        · obtain ⟨rfl, -⟩ := Held.registration.inj heq
          simp at hne
        · exact hb
      · rwa [Function.update_of_ne hba]

omit [DecidableEq α] in
/-- Actors can exchange what they hold. -/
theorem Covered.comp (h : Covered r taken held) (e : α ≃ α) : Covered r taken (held ∘ e) where
  fresh a := h.fresh (e a)
  once a := h.once (e a)
  own a b id socket socket' hm hm' :=
    have hown := h.own (e a) (e b) id socket socket' hm hm'
    ⟨e.injective hown.1, hown.2⟩
  answered a := h.answered (e a)
  entered id socket hm := by
    obtain ⟨a, ha⟩ := h.entered id socket hm
    exact ⟨e.symm a, by simpa using ha⟩

omit [DecidableEq α] in
/-- The table can be taken as a whole. -/
theorem Covered.take (h : Covered r taken held) :
    Covered { r with table := [] } (r.table.map Prod.snd ++ taken) held where
  fresh := h.fresh
  once := h.once
  own := h.own
  answered a id socket hm := by
    rcases h.answered a id socket hm with ht | ht | hs
    · exact .inr (.inl (List.mem_append_left _ (List.mem_map.mpr ⟨_, ht, rfl⟩)))
    · exact .inr (.inl (List.mem_append_right _ ht))
    · exact .inr (.inr hs)
  entered id socket hm := absurd hm List.not_mem_nil

omit [DecidableEq α] in
/-- A socket that was taken is answered for once it is shut down. -/
theorem Covered.shut_taken (h : Covered r taken held) (socket : ℕ) :
    Covered (r.shutDown socket) (taken.erase socket) held where
  fresh := h.fresh
  once := h.once
  own := h.own
  answered a id s hm := by
    by_cases hs : s = socket
    · exact .inr (.inr (hs ▸ Function.update_self ..))
    · refine (h.answered a id s hm).imp_right (Or.imp (fun ht => ?_) fun hshut => ?_)
      · exact (List.mem_erase_of_ne hs).mpr ht
      · exact (Function.update_of_ne hs _ _).trans hshut
  entered := h.entered

end

end Vhrn.Holdings
