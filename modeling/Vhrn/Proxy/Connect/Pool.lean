import Mathlib.Data.List.MinMax
import Mathlib.Tactic

/-!
# The idle pool

Bounded idle connection storage, one connection for each key. An entry lives for a limited time, the
pool evicts its oldest entries beyond its capacity, and a closed pool stays empty. That keys are
unique, the bound and the emptiness of a closed pool are fields of `IdlePool`. Every value that leaves
the pool was put there under the same key (`held_of_takeIfReusable`).
-/

namespace Vhrn.Proxy

def idlePoolCapacity : ℕ := 64

/-- In milliseconds. -/
def idlePoolLifetime : ℕ := 60000

structure PoolEntry (V : Type) where
  value : V
  idleSince : ℕ
  sequence : UInt64

variable {K V : Type} [DecidableEq K]

/-! ## Eviction -/

/-- The entries without the one of the smallest sequence number. -/
def removeOldest (entries : List (K × PoolEntry V)) : List (K × PoolEntry V) :=
  match entries.argmin fun entry => entry.2.sequence.toNat with
  | some oldest => entries.filter fun entry => entry.1 ≠ oldest.1
  | none => entries

theorem removeOldest_sublist (entries : List (K × PoolEntry V)) :
    (removeOldest entries).Sublist entries := by
  unfold removeOldest
  split
  · exact List.filter_sublist
  · exact .refl entries

theorem length_removeOldest_lt {entries : List (K × PoolEntry V)} (h : entries ≠ []) :
    (removeOldest entries).length < entries.length := by
  unfold removeOldest
  split
  · rename_i oldest ho
    exact List.length_filter_lt_length_iff_exists.mpr ⟨oldest, List.argmin_mem ho, by simp⟩
  · rename_i hnone
    exact absurd (List.argmin_eq_none.mp hnone) h

/-- The entries that remain within the capacity. -/
def evict (capacity : ℕ) (entries : List (K × PoolEntry V)) : List (K × PoolEntry V) :=
  if _h : capacity < entries.length then evict capacity (removeOldest entries) else entries
termination_by entries.length
decreasing_by exact length_removeOldest_lt (List.ne_nil_of_length_pos (by omega))

theorem evict_sublist (capacity : ℕ) (entries : List (K × PoolEntry V)) :
    (evict capacity entries).Sublist entries := by
  fun_induction evict capacity entries with
  | case1 entries h ih => exact ih.trans (removeOldest_sublist entries)
  | case2 entries h => exact .refl entries

theorem length_evict_le (capacity : ℕ) (entries : List (K × PoolEntry V)) :
    (evict capacity entries).length ≤ capacity := by
  fun_induction evict capacity entries with
  | case1 entries h ih => exact ih
  | case2 entries h => omega

/-! ## The pool -/

structure IdlePool (K V : Type) [DecidableEq K] where
  capacity : ℕ
  lifetime : ℕ
  entries : List (K × PoolEntry V)
  nextSequence : UInt64
  closed : Bool
  nodup : (entries.map Prod.fst).Nodup
  length_le : entries.length ≤ capacity
  closed_nil : closed = true → entries = []

namespace IdlePool

def build (capacity lifetime : ℕ) : IdlePool K V :=
  { capacity
    lifetime
    entries := []
    nextSequence := 0
    closed := false
    nodup := List.nodup_nil
    length_le := Nat.zero_le _
    closed_nil := fun _ => rfl }

def new : IdlePool K V := build idlePoolCapacity idlePoolLifetime

/-- The pool with some of its entries. -/
def restrict (pool : IdlePool K V) (entries : List (K × PoolEntry V))
    (h : entries.Sublist pool.entries) : IdlePool K V :=
  { capacity := pool.capacity
    lifetime := pool.lifetime
    entries
    nextSequence := pool.nextSequence
    closed := pool.closed
    nodup := (h.map Prod.fst).nodup pool.nodup
    length_le := h.length_le.trans pool.length_le
    closed_nil := fun hc => List.sublist_nil.mp (pool.closed_nil hc ▸ h) }

/-- Drops what has been idle for its lifetime. -/
def prune (pool : IdlePool K V) (now : ℕ) : IdlePool K V :=
  pool.restrict (pool.entries.filter fun entry => now - entry.2.idleSince < pool.lifetime)
    List.filter_sublist

/-- The pool without a key. -/
def remove (pool : IdlePool K V) (key : K) : IdlePool K V :=
  pool.restrict (pool.entries.filter fun entry => entry.1 ≠ key) List.filter_sublist

/-- Removes a value only if it remains usable at the instant it is taken. -/
def takeIfReusable (pool : IdlePool K V) (key : K) (reusable : V → Bool) (now : ℕ) :
    Option V × IdlePool K V :=
  let pool := pool.prune now
  if pool.closed then (none, pool)
  else
    match pool.entries.find? fun entry => entry.1 = key with
    | some entry =>
      (if reusable entry.2.value then some entry.2.value else none, pool.remove key)
    | none => (none, pool)

/-- Stores a value only if it is currently reusable. The clock is read for the entries that are dropped
and again for the new one. -/
def putIfReusable (pool : IdlePool K V) (key : K) (value : V) (reusable : V → Bool)
    (now stored : ℕ) : IdlePool K V :=
  if !reusable value then pool
  else
    let pool := pool.prune now
    if h : pool.closed = true then pool
    else
      let entry : PoolEntry V := { value, idleSince := stored, sequence := pool.nextSequence }
      let entries := (key, entry) :: (pool.remove key).entries
      { capacity := pool.capacity
        lifetime := pool.lifetime
        entries := evict pool.capacity entries
        nextSequence := pool.nextSequence + 1
        closed := false
        nodup := by
          refine ((evict_sublist pool.capacity entries).map Prod.fst).nodup ?_
          refine List.nodup_cons.mpr ⟨?_, (pool.remove key).nodup⟩
          intro hmem
          obtain ⟨e, he, hk⟩ := List.mem_map.mp hmem
          exact absurd hk (by simpa using (List.mem_filter.mp he).2)
        length_le := length_evict_le pool.capacity entries
        closed_nil := fun hc => by cases hc }

def close (pool : IdlePool K V) : IdlePool K V :=
  { capacity := pool.capacity
    lifetime := pool.lifetime
    entries := []
    nextSequence := pool.nextSequence
    closed := true
    nodup := List.nodup_nil
    length_le := Nat.zero_le _
    closed_nil := fun _ => rfl }

/-! ## What a pool holds -/

/-- The pool holds the value under the key. -/
def Holds (pool : IdlePool K V) (key : K) (value : V) : Prop :=
  ∃ entry, (key, entry) ∈ pool.entries ∧ entry.value = value

variable {pool : IdlePool K V} {key key' : K} {value value' : V} {reusable : V → Bool} {now stored : ℕ}

theorem not_holds_new : ¬ (new : IdlePool K V).Holds key value := by
  rintro ⟨entry, h, -⟩
  cases h

theorem Holds.of_restrict {entries : List (K × PoolEntry V)} {h : entries.Sublist pool.entries}
    (hv : (pool.restrict entries h).Holds key value) : pool.Holds key value := by
  obtain ⟨entry, hmem, hvalue⟩ := hv
  exact ⟨entry, h.subset hmem, hvalue⟩

theorem Holds.of_prune (hv : (pool.prune now).Holds key value) : pool.Holds key value :=
  hv.of_restrict

theorem not_holds_close : ¬ pool.close.Holds key value := by
  rintro ⟨entry, h, -⟩
  cases h

/-- **A value that is taken was held under the key it is taken by.** -/
theorem held_of_takeIfReusable (h : (pool.takeIfReusable key reusable now).1 = some value) :
    pool.Holds key value := by
  unfold takeIfReusable at h
  simp only at h
  split at h
  · cases h
  · split at h
    · rename_i entry hfind
      obtain ⟨-, hvalue⟩ := Option.ite_none_right_eq_some.mp h
      have hmem := List.mem_of_find?_eq_some hfind
      have hkey : entry.1 = key := by simpa using List.find?_some hfind
      have hheld : (pool.prune now).Holds key value :=
        ⟨entry.2, hkey ▸ hmem, Option.some.inj hvalue⟩
      exact hheld.of_prune
    · cases h

theorem Holds.of_takeIfReusable
    (hv : (pool.takeIfReusable key reusable now).2.Holds key' value) : pool.Holds key' value := by
  unfold takeIfReusable at hv
  simp only at hv
  split at hv
  · exact hv.of_prune
  · split at hv
    · have hheld : ((pool.prune now).remove key).Holds key' value := hv
      exact hheld.of_restrict.of_prune
    · exact hv.of_prune

/-- **What a pool holds after a value is put was held before or is that value under its key.** -/
theorem Holds.of_putIfReusable
    (hv : (pool.putIfReusable key value reusable now stored).Holds key' value') :
    pool.Holds key' value' ∨ (key' = key ∧ value' = value) := by
  unfold putIfReusable at hv
  simp only at hv
  split at hv
  · exact .inl hv
  · split at hv
    · exact .inl hv.of_prune
    · obtain ⟨entry, hmem, hvalue⟩ := hv
      rcases List.mem_cons.mp ((evict_sublist _ _).subset hmem) with heq | hmem
      · obtain ⟨rfl, rfl⟩ := Prod.mk.inj heq
        exact .inr ⟨rfl, hvalue.symm⟩
      · have hheld : ((pool.prune now).remove key).Holds key' value' := ⟨entry, hmem, hvalue⟩
        exact .inl hheld.of_restrict.of_prune

end IdlePool

end Vhrn.Proxy
