import Vhrn.Proxy.Connect.Pool

/-!
# Runs of the idle pool

What holds over every run of a pool of any capacity and lifetime. Each stored value is marked with the
number of the operation that stores it, so one storing is told from another of the same connection. A
stored value comes back at most once, by its key and in its time (`Tracked`), a full pool gives up the
value stored earliest until the counter of its stores wraps round (`evictsEarliest_of_unwrapped`), and
a closed pool stays empty.
-/

namespace Vhrn.Proxy

/-! ## Operations -/

inductive PoolOp (K V : Type)
  | take (key : K) (reusable : V → Bool) (now : ℕ)
  | put (key : K) (value : V) (reusable : V → Bool) (now stored : ℕ)
  | prune (now : ℕ)
  | close

/-- The operation on values that are marked with the number of the operation that stores them. -/
def PoolOp.marked {K V : Type} (index : ℕ) : PoolOp K V → PoolOp K (ℕ × V)
  | .take key reusable now => .take key (fun value => reusable value.2) now
  | .put key value reusable now stored =>
    .put key (index, value) (fun value => reusable value.2) now stored
  | .prune now => .prune now
  | .close => .close

variable {K V : Type} [DecidableEq K]

namespace IdlePool

/-- What an operation returns, and the pool after it. -/
def perform (pool : IdlePool K V) : PoolOp K V → Option V × IdlePool K V
  | .take key reusable now => pool.takeIfReusable key reusable now
  | .put key value reusable now stored => (none, pool.putIfReusable key value reusable now stored)
  | .prune now => (none, pool.prune now)
  | .close => (none, pool.close)

/-- The operation stores its value. -/
def stores (pool : IdlePool K V) : PoolOp K V → Bool
  | .put _ value reusable _ _ => reusable value && !pool.closed
  | _ => false

/-- The entries of an open pool with a new one, before it is cut to its capacity. -/
def offered (pool : IdlePool K V) (key : K) (value : V) (now stored : ℕ) : List (K × PoolEntry V) :=
  (key, { value, idleSince := stored, sequence := pool.nextSequence }) ::
    ((pool.prune now).remove key).entries

end IdlePool

/-! ## What an operation does -/

/-- The least number goes with every entry of its key. -/
theorem removeOldest_eq {entries : List (K × PoolEntry V)} (h : entries ≠ []) :
    ∃ oldest ∈ entries, (∀ entry ∈ entries, oldest.2.sequence.toNat ≤ entry.2.sequence.toNat) ∧
      removeOldest entries = entries.filter fun entry => entry.1 ≠ oldest.1 := by
  unfold removeOldest
  split
  · rename_i oldest holdest
    refine ⟨oldest, List.argmin_mem holdest, fun entry hentry => ?_, rfl⟩
    exact List.le_of_mem_argmin (f := fun entry => entry.2.sequence.toNat) hentry holdest
  · rename_i hnone
    exact absurd (List.argmin_eq_none.mp hnone) h

/-- One entry too many is one eviction. -/
theorem evict_eq {capacity : ℕ} {entries : List (K × PoolEntry V)}
    (h : entries.length ≤ capacity + 1) : evict capacity entries =
      if capacity < entries.length then removeOldest entries else entries := by
  rw [evict]
  split
  · rename_i hlt
    have hshorter := length_removeOldest_lt (List.ne_nil_of_length_pos (Nat.zero_lt_of_lt hlt))
    rw [evict, dif_neg (by omega)]
  · rfl

namespace IdlePool

variable {pool : IdlePool K V} {key : K} {value : V} {reusable : V → Bool} {now stored : ℕ}

theorem length_offered_le (pool : IdlePool K V) (key : K) (value : V) (now stored : ℕ) :
    (pool.offered key value now stored).length ≤ pool.capacity + 1 :=
  Nat.succ_le_succ ((pool.prune now).remove key).length_le

theorem nodup_offered : ((pool.offered key value now stored).map Prod.fst).Nodup := by
  refine List.nodup_cons.mpr ⟨?_, ((pool.prune now).remove key).nodup⟩
  intro hmem
  obtain ⟨entry, hentry, hkey⟩ := List.mem_map.mp hmem
  exact absurd hkey (by simpa using (List.mem_filter.mp hentry).2)

/-- An open pool cuts what it is offered to its capacity. -/
theorem putIfReusable_open (key : K) (value : V) (reusable : V → Bool) (now stored : ℕ)
    (hreusable : reusable value = true) (hopen : pool.closed = false) :
    (pool.putIfReusable key value reusable now stored).entries =
        evict pool.capacity (pool.offered key value now stored) ∧
      (pool.putIfReusable key value reusable now stored).nextSequence = pool.nextSequence + 1 ∧
      (pool.putIfReusable key value reusable now stored).closed = false := by
  have hclosed : ¬ (pool.prune now).closed = true := by
    show ¬ pool.closed = true
    rw [hopen]
    exact Bool.false_ne_true
  unfold putIfReusable
  rw [hreusable, Bool.not_true, if_neg Bool.false_ne_true]
  simp only
  rw [dif_neg hclosed]
  exact ⟨rfl, rfl, rfl⟩

/-- A value that is refused leaves the pool with some of its entries. -/
theorem putIfReusable_refused (h : pool.stores (.put key value reusable now stored) = false) :
    (pool.putIfReusable key value reusable now stored).entries ⊆ pool.entries ∧
      (pool.putIfReusable key value reusable now stored).nextSequence = pool.nextSequence := by
  unfold putIfReusable
  cases hreusable : reusable value with
  | false => exact ⟨List.Subset.refl _, rfl⟩
  | true =>
    have hclosed : (pool.prune now).closed = true := by
      show pool.closed = true
      rw [stores, hreusable, Bool.true_and, Bool.not_eq_false'] at h
      exact h
    rw [Bool.not_true, if_neg Bool.false_ne_true]
    simp only
    rw [dif_pos hclosed]
    exact ⟨List.filter_sublist.subset, rfl⟩

/-- The two ways in which a taking ends. -/
theorem takeIfReusable_cases (pool : IdlePool K V) (key : K) (reusable : V → Bool) (now : ℕ) :
    ((pool.takeIfReusable key reusable now).1 = none ∧
        (pool.takeIfReusable key reusable now).2.entries ⊆ pool.entries) ∨
      ∃ entry, (key, entry) ∈ pool.entries ∧ now - entry.idleSince < pool.lifetime ∧
        reusable entry.value = true ∧
        pool.takeIfReusable key reusable now = (some entry.value, (pool.prune now).remove key) := by
  have hprune : (pool.prune now).entries ⊆ pool.entries := List.filter_sublist.subset
  unfold takeIfReusable
  simp only
  split
  · exact .inl ⟨rfl, hprune⟩
  · split
    · rename_i entry hfind
      have hmem := List.mem_filter.mp (List.mem_of_find?_eq_some hfind)
      have hkey : entry.1 = key := by simpa using List.find?_some hfind
      cases hreusable : reusable entry.2.value with
      | false =>
        exact .inl ⟨by simp, fun e he => hprune (List.mem_filter.mp he).1⟩
      | true =>
        refine .inr ⟨entry.2, hkey ▸ hmem.1, by simpa using hmem.2, hreusable, by simp⟩
    · exact .inl ⟨rfl, hprune⟩

/-- What an operation can do: take away entries, store a value, or return one. -/
inductive Performed (pool : IdlePool K V) : PoolOp K V → Option V × IdlePool K V → Prop
  | less {op : PoolOp K V} {pool' : IdlePool K V} (stores : pool.stores op = false)
    (entries : pool'.entries ⊆ pool.entries) (next : pool'.nextSequence = pool.nextSequence) :
    Performed pool op (none, pool')
  | stored {key : K} {value : V} {reusable : V → Bool} {now stored : ℕ} {pool' : IdlePool K V}
    (reusable_value : reusable value = true) (opened : pool.closed = false)
    (entries : pool'.entries = evict pool.capacity (pool.offered key value now stored))
    (next : pool'.nextSequence = pool.nextSequence + 1) :
    Performed pool (.put key value reusable now stored) (none, pool')
  | returned {key : K} {reusable : V → Bool} {now : ℕ} {entry : PoolEntry V}
    (mem : (key, entry) ∈ pool.entries) (fresh : now - entry.idleSince < pool.lifetime)
    (reusable_value : reusable entry.value = true) :
    Performed pool (.take key reusable now) (some entry.value, (pool.prune now).remove key)

theorem performed (pool : IdlePool K V) (op : PoolOp K V) : Performed pool op (pool.perform op) := by
  cases op with
  | take key reusable now =>
    have hnext : (pool.takeIfReusable key reusable now).2.nextSequence = pool.nextSequence := by
      unfold takeIfReusable
      simp only
      split
      · rfl
      · split <;> rfl
    rcases pool.takeIfReusable_cases key reusable now with ⟨hnone, hentries⟩ | ⟨entry, hmem, hfresh,
      hreusable, heq⟩
    · have hperform : pool.perform (.take key reusable now) =
          (none, (pool.takeIfReusable key reusable now).2) := Prod.ext hnone rfl
      rw [hperform]
      exact .less rfl hentries hnext
    · have hperform : pool.perform (.take key reusable now) = _ := heq
      rw [hperform]
      exact .returned hmem hfresh hreusable
  | put key value reusable now stored =>
    cases hstores : pool.stores (.put key value reusable now stored) with
    | false =>
      obtain ⟨hentries, hnext⟩ := putIfReusable_refused hstores
      exact .less hstores hentries hnext
    | true =>
      obtain ⟨hreusable, hopen⟩ := Bool.and_eq_true_iff.mp hstores
      rw [Bool.not_eq_true'] at hopen
      obtain ⟨hentries, hnext, -⟩ := putIfReusable_open key value reusable now stored hreusable hopen
      exact .stored hreusable hopen hentries hnext
  | prune now => exact .less rfl List.filter_sublist.subset rfl
  | close => exact .less rfl (List.nil_subset _) rfl

theorem capacity_perform (pool : IdlePool K V) (op : PoolOp K V) :
    (pool.perform op).2.capacity = pool.capacity ∧
      (pool.perform op).2.lifetime = pool.lifetime := by
  cases op with
  | take key reusable now =>
    unfold perform takeIfReusable
    simp only
    split
    · exact ⟨rfl, rfl⟩
    · split <;> exact ⟨rfl, rfl⟩
  | put key value reusable now stored =>
    unfold perform putIfReusable
    simp only
    split
    · exact ⟨rfl, rfl⟩
    · split <;> exact ⟨rfl, rfl⟩
  | prune now => exact ⟨rfl, rfl⟩
  | close => exact ⟨rfl, rfl⟩

end IdlePool

/-! ## Runs -/

/-- A pool after operations, with the number of values it has stored and the values it has returned. -/
structure PoolRun (K V : Type) [DecidableEq K] where
  pool : IdlePool K (ℕ × V)
  stored : ℕ
  returned : List (ℕ × V)

/-- One more operation, which has the given number. -/
def PoolRun.next (run : PoolRun K V) (op : PoolOp K V) (index : ℕ) : PoolRun K V :=
  let (value, pool) := run.pool.perform (op.marked index)
  { pool
    stored := if run.pool.stores (op.marked index) then run.stored + 1 else run.stored
    returned := run.returned ++ value.toList }

/-- A pool of the given capacity and lifetime after the operations. -/
def PoolRun.of (capacity lifetime : ℕ) (ops : List (PoolOp K V)) : PoolRun K V :=
  ops.zipIdx.foldl (fun run op => run.next op.1 op.2)
    { pool := .build capacity lifetime, stored := 0, returned := [] }

theorem PoolRun.of_append (capacity lifetime : ℕ) (ops : List (PoolOp K V)) (op : PoolOp K V) :
    PoolRun.of capacity lifetime (ops ++ [op]) =
      (PoolRun.of capacity lifetime ops).next op ops.length := by
  rw [PoolRun.of, List.zipIdx_append, List.foldl_append, ← PoolRun.of]
  simp

theorem PoolRun.stored_le_next (run : PoolRun K V) (op : PoolOp K V) (index : ℕ) :
    run.stored ≤ (run.next op index).stored := by
  show run.stored ≤ if run.pool.stores (op.marked index) then run.stored + 1 else run.stored
  split <;> omega

/-- A longer run has stored no less. -/
theorem PoolRun.stored_mono (capacity lifetime : ℕ) (ops later : List (PoolOp K V)) :
    (PoolRun.of capacity lifetime ops).stored ≤
      (PoolRun.of capacity lifetime (ops ++ later)).stored := by
  induction later using List.reverseRecOn with
  | nil => rw [List.append_nil]
  | append_singleton later op ih =>
    rw [← List.append_assoc, PoolRun.of_append]
    exact ih.trans (PoolRun.stored_le_next _ op _)

/-- Where an entry of a run comes from: its value was put under its key by an operation that stored it,
and has not come back. -/
structure Tracked (capacity lifetime : ℕ) (ops : List (PoolOp K V)) (key : K)
    (entry : PoolEntry (ℕ × V)) : Prop where
  index_lt : entry.value.1 < ops.length
  put_by : ∃ reusable now,
    ops[entry.value.1]? = some (.put key entry.value.2 reusable now entry.idleSince) ∧
      reusable entry.value.2 = true
  sequence : entry.sequence =
    UInt64.ofNat (PoolRun.of capacity lifetime (ops.take entry.value.1)).stored
  stored : (PoolRun.of capacity lifetime (ops.take (entry.value.1 + 1))).stored =
    (PoolRun.of capacity lifetime (ops.take entry.value.1)).stored + 1
  kept : ∀ value ∈ (PoolRun.of capacity lifetime ops).returned, value.1 ≠ entry.value.1

section

variable {capacity lifetime : ℕ} {ops : List (PoolOp K V)} {key : K} {entry : PoolEntry (ℕ × V)}

theorem Tracked.append (h : Tracked capacity lifetime ops key entry) {op : PoolOp K V}
    (hkept : ∀ value ∈ (PoolRun.of capacity lifetime (ops ++ [op])).returned,
      value.1 ≠ entry.value.1) : Tracked capacity lifetime (ops ++ [op]) key entry := by
  have hlt := h.index_lt
  have htake {n : ℕ} (hn : n ≤ ops.length) : (ops ++ [op]).take n = ops.take n := by
    rw [List.take_append_of_le_length hn]
  refine ⟨?_, ?_, ?_, ?_, hkept⟩
  · rw [List.length_append]
    omega
  · rw [List.getElem?_append_left hlt]
    exact h.put_by
  · rw [htake hlt.le]
    exact h.sequence
  · rw [htake hlt, htake hlt.le]
    exact h.stored

/-- **What holds after every run.** -/
structure PoolRun.Sound (capacity lifetime : ℕ) (ops : List (PoolOp K V)) (run : PoolRun K V) :
    Prop where
  capacity_eq : run.pool.capacity = capacity
  lifetime_eq : run.pool.lifetime = lifetime
  next_eq : run.pool.nextSequence = UInt64.ofNat run.stored
  tracked : ∀ key entry, (key, entry) ∈ run.pool.entries → Tracked capacity lifetime ops key entry
  earlier : ∀ value ∈ run.returned, value.1 < ops.length
  once : (run.returned.map Prod.fst).Nodup

/-- The entries of one mark have one key. -/
theorem PoolRun.Sound.eq_of_mark {run : PoolRun K V} (h : run.Sound capacity lifetime ops)
    {key key' : K} {entry entry' : PoolEntry (ℕ × V)} (hmem : (key, entry) ∈ run.pool.entries)
    (hmem' : (key', entry') ∈ run.pool.entries) (hmark : entry.value.1 = entry'.value.1) :
    key = key' := by
  obtain ⟨reusable, now, hop, -⟩ := (h.tracked key entry hmem).put_by
  obtain ⟨reusable', now', hop', -⟩ := (h.tracked key' entry' hmem').put_by
  rw [hmark, hop'] at hop
  exact (PoolOp.put.inj (Option.some.inj hop)).1.symm

/-- The entry that a storing operation adds. -/
theorem tracked_stored {value : V} {reusable : V → Bool} {now stored : ℕ}
    (h : (PoolRun.of capacity lifetime ops).Sound capacity lifetime ops)
    (hreusable : reusable value = true)
    (hopen : (PoolRun.of capacity lifetime ops).pool.closed = false)
    (hreturned : (PoolRun.of capacity lifetime (ops ++ [.put key value reusable now stored])).returned
      = (PoolRun.of capacity lifetime ops).returned) :
    Tracked capacity lifetime (ops ++ [.put key value reusable now stored]) key
      { value := (ops.length, value), idleSince := stored
        sequence := (PoolRun.of capacity lifetime ops).pool.nextSequence } := by
  have htake : (ops ++ [PoolOp.put key value reusable now stored]).take ops.length = ops :=
    List.take_left
  refine ⟨?_, ⟨reusable, now, ?_, hreusable⟩, ?_, ?_, fun value' hvalue => ?_⟩
  · rw [List.length_append]
    exact Nat.lt_succ_self ops.length
  · show (ops ++ [_])[ops.length]? = _
    rw [List.getElem?_concat_length]
  · show _ = UInt64.ofNat (PoolRun.of capacity lifetime (List.take ops.length _)).stored
    rw [htake]
    exact h.next_eq
  · show (PoolRun.of capacity lifetime (List.take (ops.length + 1) _)).stored =
      (PoolRun.of capacity lifetime (List.take ops.length _)).stored + 1
    rw [htake, List.take_of_length_le (by simp), PoolRun.of_append]
    show (if _ then _ else _) = _
    rw [if_pos]
    show (reusable value && !(PoolRun.of capacity lifetime ops).pool.closed) = true
    rw [hreusable, hopen]
    rfl
  · rw [hreturned] at hvalue
    exact (h.earlier value' hvalue).ne

/-- What a storing operation offers the pool. -/
theorem tracked_offered {value : V} {reusable : V → Bool} {now stored : ℕ}
    (h : (PoolRun.of capacity lifetime ops).Sound capacity lifetime ops)
    (hreusable : reusable value = true)
    (hopen : (PoolRun.of capacity lifetime ops).pool.closed = false) {key' : K}
    (hmem : (key', entry) ∈
      (PoolRun.of capacity lifetime ops).pool.offered key (ops.length, value) now stored) :
    Tracked capacity lifetime (ops ++ [.put key value reusable now stored]) key' entry := by
  have hreturned : (PoolRun.of capacity lifetime
      (ops ++ [.put key value reusable now stored])).returned =
        (PoolRun.of capacity lifetime ops).returned := by
    rw [PoolRun.of_append]
    exact List.append_nil _
  rcases List.mem_cons.mp hmem with heq | hold
  · obtain ⟨rfl, rfl⟩ := Prod.mk.inj heq
    exact tracked_stored h hreusable hopen hreturned
  · have hmem' := (List.mem_filter.mp (List.mem_filter.mp hold).1).1
    refine (h.tracked key' entry hmem').append ?_
    rw [hreturned]
    exact (h.tracked key' entry hmem').kept

/-- A run that goes on with fewer entries. -/
theorem sound_of_less {op : PoolOp K V}
    (h : (PoolRun.of capacity lifetime ops).Sound capacity lifetime ops)
    {pool' : IdlePool K (ℕ × V)} {returned' : List (ℕ × V)}
    (hof : PoolRun.of capacity lifetime (ops ++ [op]) =
      { pool := pool', stored := (PoolRun.of capacity lifetime ops).stored, returned := returned' })
    (hcapacity : pool'.capacity = capacity) (hlifetime : pool'.lifetime = lifetime)
    (hnext : pool'.nextSequence = (PoolRun.of capacity lifetime ops).pool.nextSequence)
    (hentries : ∀ key entry, (key, entry) ∈ pool'.entries →
      (key, entry) ∈ (PoolRun.of capacity lifetime ops).pool.entries ∧
        ∀ value ∈ returned', value.1 ≠ entry.value.1)
    (hearlier : ∀ value ∈ returned', value.1 < ops.length)
    (honce : (returned'.map Prod.fst).Nodup) :
    (PoolRun.of capacity lifetime (ops ++ [op])).Sound capacity lifetime (ops ++ [op]) := by
  refine ⟨?_, ?_, ?_, fun key entry hmem => ?_, fun value hvalue => ?_, ?_⟩
  · rw [hof]
    exact hcapacity
  · rw [hof]
    exact hlifetime
  · rw [hof]
    exact hnext.trans h.next_eq
  · rw [hof] at hmem
    obtain ⟨hmem, hkept⟩ := hentries key entry hmem
    refine (h.tracked key entry hmem).append ?_
    rw [hof]
    exact hkept
  · rw [hof] at hvalue
    rw [List.length_append]
    exact (hearlier value hvalue).trans_le (Nat.le_add_right _ _)
  · rw [hof]
    exact honce

/-- **An operation keeps a run sound.** -/
theorem sound_next (h : (PoolRun.of capacity lifetime ops).Sound capacity lifetime ops)
    (op : PoolOp K V) : (PoolRun.of capacity lifetime (ops ++ [op])).Sound capacity lifetime
      (ops ++ [op]) := by
  have hof := PoolRun.of_append capacity lifetime ops op
  have hperformed := (PoolRun.of capacity lifetime ops).pool.performed (op.marked ops.length)
  obtain ⟨hcapacity, hlifetime⟩ :=
    (PoolRun.of capacity lifetime ops).pool.capacity_perform (op.marked ops.length)
  rw [h.capacity_eq] at hcapacity
  rw [h.lifetime_eq] at hlifetime
  rw [PoolRun.next] at hof
  simp only at hof
  generalize (PoolRun.of capacity lifetime ops).pool.perform (op.marked ops.length) = result at *
  generalize hop : op.marked ops.length = marked at *
  cases hperformed with
  | less stores entries next =>
    rw [stores, if_neg Bool.false_ne_true, Option.toList_none, List.append_nil] at hof
    exact sound_of_less h hof hcapacity hlifetime next
      (fun key entry hmem => ⟨entries hmem, (h.tracked key entry (entries hmem)).kept⟩)
      h.earlier h.once
  | stored reusable_value opened entries next =>
    cases op with
    | put key value reusable now stored =>
      obtain ⟨rfl, rfl, rfl, rfl, rfl⟩ := PoolOp.put.inj hop
      have hreusable : reusable value = true := reusable_value
      have hstores : (PoolRun.of capacity lifetime ops).pool.stores
          (.put key (ops.length, value) (fun value => reusable value.2) now stored) = true := by
        show (reusable value && !_) = true
        rw [hreusable, opened]
        rfl
      rw [hstores, if_pos rfl, Option.toList_none, List.append_nil] at hof
      refine ⟨?_, ?_, ?_, fun key' entry hmem => ?_, fun value hvalue => ?_, ?_⟩
      · rw [hof]
        exact hcapacity
      · rw [hof]
        exact hlifetime
      · rw [hof]
        show _ = UInt64.ofNat (_ + 1)
        rw [next, h.next_eq, UInt64.ofNat_add]
        rfl
      · rw [hof] at hmem
        exact tracked_offered h hreusable opened ((evict_sublist _ _).subset (entries ▸ hmem))
      · rw [hof] at hvalue
        rw [List.length_append]
        exact (h.earlier value hvalue).trans_le (Nat.le_add_right _ _)
      · rw [hof]
        exact h.once
    | _ => cases hop
  | returned mem fresh reusable_value =>
    rename_i key reusable now entry
    have hstores : (PoolRun.of capacity lifetime ops).pool.stores (.take key reusable now) = false :=
      rfl
    rw [hstores, if_neg Bool.false_ne_true, Option.toList_some] at hof
    have htracked := h.tracked key entry mem
    refine sound_of_less h hof hcapacity hlifetime rfl (fun key' entry' hmem => ?_) ?_ ?_
    · obtain ⟨hpruned, hkey⟩ := List.mem_filter.mp hmem
      have hmem' := (List.mem_filter.mp hpruned).1
      refine ⟨hmem', fun value hvalue hmark => ?_⟩
      rcases List.mem_append.mp hvalue with hvalue | hvalue
      · exact (h.tracked key' entry' hmem').kept value hvalue hmark
      · obtain rfl := List.mem_singleton.mp hvalue
        exact absurd (h.eq_of_mark mem hmem' hmark).symm (by simpa using hkey)
    · intro value hvalue
      rcases List.mem_append.mp hvalue with hvalue | hvalue
      · exact h.earlier value hvalue
      · obtain rfl := List.mem_singleton.mp hvalue
        exact htracked.index_lt
    · rw [List.map_append, List.nodup_append]
      refine ⟨h.once, List.nodup_singleton _, fun mark hmark mark' hmark' => ?_⟩
      obtain ⟨value, hvalue, rfl⟩ := List.mem_map.mp hmark
      obtain rfl := List.mem_singleton.mp hmark'
      exact htracked.kept value hvalue

/-- **Every run is sound.** -/
theorem sound_of (capacity lifetime : ℕ) (ops : List (PoolOp K V)) :
    (PoolRun.of capacity lifetime ops).Sound capacity lifetime ops := by
  induction ops using List.reverseRecOn with
  | nil =>
    exact ⟨rfl, rfl, rfl, fun key entry hmem => absurd hmem List.not_mem_nil,
      fun value hvalue => absurd hvalue List.not_mem_nil, List.nodup_nil⟩
  | append_singleton ops op ih => exact sound_next ih op

/-! ## Taking -/

/-- What one more operation returns. -/
def PoolRun.returns (capacity lifetime : ℕ) (ops : List (PoolOp K V)) (op : PoolOp K V) :
    Option (ℕ × V) :=
  ((PoolRun.of capacity lifetime ops).pool.perform (op.marked ops.length)).1

/-- **A value that comes back was put under the key it is taken by, is still reusable, and has not been
idle for its lifetime.** -/
theorem put_of_returns {op : PoolOp K V} {index : ℕ} {value : V}
    (h : PoolRun.returns capacity lifetime ops op = some (index, value)) :
    ∃ key reusable now, op = .take key reusable now ∧ reusable value = true ∧
      ∃ reusable' now' stored, ops[index]? = some (.put key value reusable' now' stored) ∧
        reusable' value = true ∧ now < stored + lifetime := by
  have hsound := sound_of capacity lifetime ops
  have hperformed := (PoolRun.of capacity lifetime ops).pool.performed (op.marked ops.length)
  rw [PoolRun.returns] at h
  generalize (PoolRun.of capacity lifetime ops).pool.perform (op.marked ops.length) = result at *
  generalize hop : op.marked ops.length = marked at *
  cases hperformed with
  | less => cases h
  | stored => cases h
  | returned mem fresh reusable_value =>
    rename_i key' reusable' now' entry
    have hvalue : entry.value = (index, value) := Option.some.inj h
    have htracked := hsound.tracked key' entry mem
    obtain ⟨reusable₀, now₀, hput, hreusable₀⟩ := htracked.put_by
    rw [hvalue] at hput hreusable₀ reusable_value
    rw [hsound.lifetime_eq] at fresh
    cases op with
    | take key reusable now =>
      obtain ⟨rfl, rfl, rfl⟩ := PoolOp.take.inj hop
      exact ⟨key, reusable, now, rfl, reusable_value, reusable₀, now₀, entry.idleSince, hput,
        hreusable₀, by omega⟩
    | _ => cases hop

/-! ## Evicting -/

/-- The number of stores before the one that stored an entry. -/
def storeNumber (capacity lifetime : ℕ) (ops : List (PoolOp K V)) (entry : PoolEntry (ℕ × V)) : ℕ :=
  (PoolRun.of capacity lifetime (ops.take entry.value.1)).stored

theorem Tracked.toNat_sequence (h : Tracked capacity lifetime ops key entry) :
    entry.sequence.toNat = storeNumber capacity lifetime ops entry % 2 ^ 64 := by
  rw [h.sequence]
  exact UInt64.toNat_ofNat'

/-- Fewer stores before it means stored earlier. -/
theorem Tracked.index_le {key' : K} {entry' : PoolEntry (ℕ × V)}
    (h' : Tracked capacity lifetime ops key' entry')
    (hle : storeNumber capacity lifetime ops entry ≤
      storeNumber capacity lifetime ops entry') : entry.value.1 ≤ entry'.value.1 := by
  by_contra hlt
  have hmono : (PoolRun.of capacity lifetime (ops.take (entry'.value.1 + 1))).stored ≤
      (PoolRun.of capacity lifetime (ops.take entry.value.1)).stored := by
    have hsplit : ops.take entry.value.1 = ops.take (entry'.value.1 + 1) ++
        (ops.take entry.value.1).drop (entry'.value.1 + 1) := by
      have htake := List.take_append_drop (entry'.value.1 + 1) (ops.take entry.value.1)
      rw [List.take_take, Nat.min_eq_left (by omega)] at htake
      exact htake.symm
    rw [hsplit]
    exact PoolRun.stored_mono capacity lifetime _ _
  rw [h'.stored] at hmono
  unfold storeNumber at hle
  omega

/-- A store keeps everything it offers the pool, or all but one entry of the least sequence number. -/
theorem entries_after_put (key : K) (value : V) (reusable : V → Bool) (now stored : ℕ)
    (hreusable : reusable value = true)
    (hopen : (PoolRun.of capacity lifetime ops).pool.closed = false) :
    let offered := (PoolRun.of capacity lifetime ops).pool.offered key (ops.length, value) now stored
    let after :=
      (PoolRun.of capacity lifetime (ops ++ [.put key value reusable now stored])).pool.entries
    (offered.length ≤ capacity → after = offered) ∧
      (capacity < offered.length → ∃ oldest ∈ offered,
        (∀ entry ∈ offered, oldest.2.sequence.toNat ≤ entry.2.sequence.toNat) ∧
          after = offered.filter fun entry => entry.1 ≠ oldest.1) := by
  intro offered after
  have hcapacity := (sound_of capacity lifetime ops).capacity_eq
  have hafter : after = evict capacity offered := by
    have hput := (IdlePool.putIfReusable_open key (ops.length, value)
      (fun value => reusable value.2) now stored hreusable hopen).1
    rw [hcapacity] at hput
    rw [← hput]
    show (PoolRun.of capacity lifetime (ops ++ [_])).pool.entries = _
    rw [PoolRun.of_append]
    rfl
  have hlength : offered.length ≤ capacity + 1 := by
    have hoffered := (PoolRun.of capacity lifetime ops).pool.length_offered_le key
      (ops.length, value) now stored
    rwa [hcapacity] at hoffered
  rw [hafter, evict_eq hlength]
  refine ⟨fun hle => if_neg (Nat.not_lt.mpr hle), fun hlt => ?_⟩
  rw [if_pos hlt]
  exact removeOldest_eq (List.cons_ne_nil _ _)

/-- A store leaves the pool open and is counted. -/
theorem open_after_put (key : K) (value : V) (reusable : V → Bool) (now stored : ℕ)
    (hreusable : reusable value = true)
    (hopen : (PoolRun.of capacity lifetime ops).pool.closed = false) :
    (PoolRun.of capacity lifetime (ops ++ [.put key value reusable now stored])).pool.closed = false ∧
      (PoolRun.of capacity lifetime (ops ++ [.put key value reusable now stored])).stored =
        (PoolRun.of capacity lifetime ops).stored + 1 := by
  rw [PoolRun.of_append]
  constructor
  · exact (IdlePool.putIfReusable_open key (ops.length, value)
      (fun value => reusable value.2) now stored hreusable hopen).2.2
  · refine if_pos ?_
    show (reusable value && !(PoolRun.of capacity lifetime ops).pool.closed) = true
    rw [hreusable, hopen]
    rfl

/-- The counter of the stores has not wrapped round since any of the entries was stored. -/
def Unwrapped (capacity lifetime : ℕ) (ops : List (PoolOp K V)) (key : K) (value : V)
    (reusable : V → Bool) (now stored : ℕ) : Prop :=
  ∀ entry ∈ (PoolRun.of capacity lifetime ops).pool.offered key (ops.length, value) now stored,
    storeNumber capacity lifetime (ops ++ [.put key value reusable now stored]) entry.2 / 2 ^ 64 =
      (PoolRun.of capacity lifetime ops).stored / 2 ^ 64

/-- The entry that goes to make room for a value is the one stored earliest. -/
def EvictsEarliest (capacity lifetime : ℕ) (ops : List (PoolOp K V)) (key : K) (value : V)
    (reusable : V → Bool) (now stored : ℕ) : Prop :=
  reusable value = true → (PoolRun.of capacity lifetime ops).pool.closed = false →
    ∀ entry ∈ (PoolRun.of capacity lifetime ops).pool.offered key (ops.length, value) now stored,
      entry ∉ (PoolRun.of capacity lifetime
        (ops ++ [.put key value reusable now stored])).pool.entries →
      ∀ entry' ∈
        (PoolRun.of capacity lifetime ops).pool.offered key (ops.length, value) now stored,
        entry.2.value.1 ≤ entry'.2.value.1

/-- **The pool gives up what was stored earliest**, as long as its counter has not wrapped round. -/
theorem evictsEarliest_of_unwrapped {value : V} {reusable : V → Bool} {now stored : ℕ}
    (h : Unwrapped capacity lifetime ops key value reusable now stored) :
    EvictsEarliest capacity lifetime ops key value reusable now stored := by
  intro hreusable hopen entry hentry hgone entry' hentry'
  have hsound := sound_of capacity lifetime ops
  have htracked {entry : K × PoolEntry (ℕ × V)} (hmem : entry ∈
      (PoolRun.of capacity lifetime ops).pool.offered key (ops.length, value) now stored) :=
    tracked_offered hsound hreusable hopen hmem
  obtain ⟨hall, hcut⟩ := entries_after_put key value reusable now stored hreusable hopen
  rcases Nat.lt_or_ge capacity ((PoolRun.of capacity lifetime ops).pool.offered key
    (ops.length, value) now stored).length with hlt | hle
  · obtain ⟨oldest, holdest, hleast, hafter⟩ := hcut hlt
    rw [hafter, List.mem_filter] at hgone
    have hkey : entry.1 = oldest.1 := by
      by_contra hne
      exact hgone ⟨hentry, by simpa using hne⟩
    obtain rfl : entry = oldest :=
      List.inj_on_of_nodup_map IdlePool.nodup_offered hentry holdest hkey
    refine (htracked hentry').index_le ?_
    have hseq := hleast entry' hentry'
    rw [(htracked hentry).toNat_sequence, (htracked hentry').toNat_sequence] at hseq
    have hquot := (h entry hentry).trans (h entry' hentry').symm
    have hdiv := Nat.div_add_mod (storeNumber capacity lifetime
      (ops ++ [.put key value reusable now stored]) entry.2) (2 ^ 64)
    have hdiv' := Nat.div_add_mod (storeNumber capacity lifetime
      (ops ++ [.put key value reusable now stored]) entry'.2) (2 ^ 64)
    rw [hquot] at hdiv
    omega
  · rw [hall hle] at hgone
    exact absurd hentry hgone

/-! ## Closing -/

theorem IdlePool.closed_perform {pool : IdlePool K V} (h : pool.closed = true) (op : PoolOp K V) :
    (pool.perform op).2.closed = true := by
  cases op with
  | take key reusable now =>
    unfold perform takeIfReusable
    simp only
    rw [if_pos (show (pool.prune now).closed = true from h)]
    exact h
  | put key value reusable now stored =>
    unfold perform putIfReusable
    simp only
    split
    · exact h
    · rw [dif_pos (show (pool.prune now).closed = true from h)]
      exact h
  | prune now => exact h
  | close => rfl

theorem PoolRun.closed_of (capacity lifetime : ℕ) {ops : List (PoolOp K V)} (h : .close ∈ ops) :
    (PoolRun.of capacity lifetime ops).pool.closed = true := by
  induction ops using List.reverseRecOn with
  | nil => exact absurd h List.not_mem_nil
  | append_singleton ops op ih =>
    rw [PoolRun.of_append]
    rcases List.mem_append.mp h with h | h
    · exact IdlePool.closed_perform (ih h) _
    · obtain rfl := List.mem_singleton.mp h
      rfl

/-- **A closed pool is empty, returns nothing and stores nothing.** -/
theorem closed_pool (h : .close ∈ ops) (op : PoolOp K V) :
    (PoolRun.of capacity lifetime ops).pool.entries = [] ∧
      PoolRun.returns capacity lifetime ops op = none ∧
      (PoolRun.of capacity lifetime (ops ++ [op])).stored =
        (PoolRun.of capacity lifetime ops).stored := by
  have hclosed := PoolRun.closed_of capacity lifetime h
  have hnil := (PoolRun.of capacity lifetime ops).pool.closed_nil hclosed
  have hstores : (PoolRun.of capacity lifetime ops).pool.stores (op.marked ops.length) = false := by
    cases op with
    | put key value reusable now stored =>
      show (reusable value && !(PoolRun.of capacity lifetime ops).pool.closed) = false
      rw [hclosed, Bool.not_true, Bool.and_false]
    | _ => rfl
  refine ⟨hnil, ?_, ?_⟩
  · have hperformed := (PoolRun.of capacity lifetime ops).pool.performed (op.marked ops.length)
    rw [PoolRun.returns]
    generalize (PoolRun.of capacity lifetime ops).pool.perform (op.marked ops.length) = result at *
    generalize op.marked ops.length = marked at *
    cases hperformed with
    | less => rfl
    | stored => rfl
    | returned mem =>
      rw [hnil] at mem
      cases mem
  · rw [PoolRun.of_append]
    show (if _ then _ else _) = _
    rw [hstores, if_neg Bool.false_ne_true]

/-! ## All runs -/

/-- **Runs of the pool.** It never holds more than its capacity. What it returns it returns once, to a
taking by the key it was put under, in its time and while it is reusable. To make room it gives up one
entry of the least sequence number, which is the one stored earliest unless the counter of the stores
has wrapped round since. Once closed it is empty and refuses every value. -/
theorem idle_pool_runs (capacity lifetime : ℕ) (ops : List (PoolOp K V)) :
    (PoolRun.of capacity lifetime ops).pool.entries.length ≤ capacity ∧
    ((PoolRun.of capacity lifetime ops).returned.map Prod.fst).Nodup ∧
    (∀ op index value, PoolRun.returns capacity lifetime ops op = some (index, value) →
      ∃ key reusable now, op = .take key reusable now ∧ reusable value = true ∧
        ∃ reusable' now' stored, ops[index]? = some (.put key value reusable' now' stored) ∧
          reusable' value = true ∧ now < stored + lifetime) ∧
    (∀ key value reusable now stored, reusable value = true →
      (PoolRun.of capacity lifetime ops).pool.closed = false →
      let offered :=
        (PoolRun.of capacity lifetime ops).pool.offered key (ops.length, value) now stored
      let after :=
        (PoolRun.of capacity lifetime (ops ++ [.put key value reusable now stored])).pool.entries
      (offered.length ≤ capacity → after = offered) ∧
        (capacity < offered.length → ∃ oldest ∈ offered,
          (∀ entry ∈ offered, oldest.2.sequence.toNat ≤ entry.2.sequence.toNat) ∧
            after = offered.filter fun entry => entry.1 ≠ oldest.1)) ∧
    (∀ key value reusable now stored, Unwrapped capacity lifetime ops key value reusable now stored →
      EvictsEarliest capacity lifetime ops key value reusable now stored) ∧
    (.close ∈ ops → ∀ op, (PoolRun.of capacity lifetime ops).pool.entries = [] ∧
      PoolRun.returns capacity lifetime ops op = none ∧
      (PoolRun.of capacity lifetime (ops ++ [op])).stored =
        (PoolRun.of capacity lifetime ops).stored) :=
  have hsound := sound_of capacity lifetime ops
  ⟨(PoolRun.of capacity lifetime ops).pool.length_le.trans_eq hsound.capacity_eq, hsound.once,
    fun _ _ _ => put_of_returns, entries_after_put,
    fun _ _ _ _ _ => evictsEarliest_of_unwrapped, closed_pool⟩

end

/-! ## A counter that wraps round -/

/-- A fresh key in a pool that nothing has left. -/
theorem offered_fresh (pool : IdlePool ℕ (ℕ × Unit)) (key : ℕ) (value : ℕ × Unit)
    (hlifetime : 0 < pool.lifetime) (hfresh : ∀ entry ∈ pool.entries, entry.1 ≠ key) :
    pool.offered key value 0 0 =
      (key, { value, idleSince := 0, sequence := pool.nextSequence }) :: pool.entries := by
  have hprune : (pool.prune 0).entries = pool.entries :=
    List.filter_eq_self.mpr fun entry _ => by simpa using hlifetime
  show _ :: List.filter _ (pool.prune 0).entries = _
  rw [hprune, List.filter_eq_self.mpr fun entry hentry => by simpa using hfresh entry hentry]

/-- A connection that is always reusable, stored at once. -/
def putNow (key : ℕ) : PoolOp ℕ Unit := .put key () (fun _ => true) 0 0

section

variable {capacity lifetime : ℕ} (hcapacity : 0 < capacity) (hlifetime : 0 < lifetime)

include hcapacity

/-- One key that is stored over and over. -/
theorem of_repeated (lifetime n : ℕ) :
    let run := PoolRun.of capacity lifetime (List.replicate (n + 1) (putNow 0))
    run.pool.closed = false ∧ run.stored = n + 1 ∧
      run.pool.entries = [(0, { value := (n, ()), idleSince := 0, sequence := UInt64.ofNat n })] := by
  induction n with
  | zero =>
    have hnew : (PoolRun.of capacity lifetime ([] : List (PoolOp ℕ Unit))).pool.closed = false := rfl
    obtain ⟨hopen, hstored⟩ := open_after_put 0 () (fun _ => true) 0 0 rfl hnew
    exact ⟨hopen, hstored, (entries_after_put 0 () (fun _ => true) 0 0 rfl hnew).1 hcapacity⟩
  | succ n ih =>
    obtain ⟨hopen, hstored, hentries⟩ := ih
    have hsound := sound_of capacity lifetime (List.replicate (n + 1) (putNow 0))
    have hnext := open_after_put 0 () (fun _ => true) 0 0 rfl hopen
    have hafter := entries_after_put 0 () (fun _ => true) 0 0 rfl hopen
    have hnone : (((PoolRun.of capacity lifetime (List.replicate (n + 1) (putNow 0))).pool.prune
        0).remove 0).entries = [] := by
      show List.filter _ (List.filter _ _) = []
      rw [hentries, List.filter_filter]
      exact List.filter_eq_nil_iff.mpr fun entry hentry => by
        rw [List.mem_singleton.mp hentry]
        simp
    have hoffered : (PoolRun.of capacity lifetime (List.replicate (n + 1) (putNow 0))).pool.offered 0
        ((List.replicate (n + 1) (putNow 0)).length, ()) 0 0 =
        [(0, { value := (n + 1, ()), idleSince := 0, sequence := UInt64.ofNat (n + 1) })] := by
      rw [IdlePool.offered, hnone, hsound.next_eq, hstored, List.length_replicate]
    rw [List.replicate_succ']
    refine ⟨hnext.1, hnext.2.trans (congrArg (· + 1) hstored), ?_⟩
    rw [← hoffered]
    refine hafter.1 ?_
    rw [hoffered]
    exact hcapacity

include hlifetime in
/-- Other keys are stored beside it while there is room. -/
theorem of_filled (n m : ℕ) (hroom : m < capacity) :
    let run := PoolRun.of capacity lifetime
      (List.replicate (n + 1) (putNow 0) ++ (List.range m).map fun key => putNow (key + 1))
    run.pool.closed = false ∧ run.stored = n + 1 + m ∧ run.pool.entries.length = m + 1 ∧
      (0, { value := (n, ()), idleSince := 0, sequence := UInt64.ofNat n }) ∈ run.pool.entries ∧
      ∀ entry ∈ run.pool.entries, entry.1 ≤ m ∧
        ∃ j ≤ m, entry.2.sequence = UInt64.ofNat (n + j) := by
  induction m with
  | zero =>
    obtain ⟨hopen, hstored, hentries⟩ := of_repeated hcapacity lifetime n
    rw [List.range_zero, List.map_nil, List.append_nil]
    intro run
    refine ⟨hopen, hstored, ?_, ?_, fun entry hentry => ?_⟩
    · rw [hentries]
      rfl
    · rw [hentries]
      exact List.mem_singleton_self _
    · rw [hentries] at hentry
      rw [List.mem_singleton.mp hentry]
      exact ⟨le_rfl, 0, le_rfl, rfl⟩
  | succ m ih =>
    obtain ⟨hopen, hstored, hlength, hfirst, hkeys⟩ := ih (by omega)
    rw [List.range_succ, List.map_append, List.map_singleton, ← List.append_assoc]
    generalize List.replicate (n + 1) (putNow 0) ++ (List.range m).map (fun key => putNow (key + 1)) =
      ops at *
    have hsound := sound_of capacity lifetime ops
    have hnext := open_after_put (m + 1) () (fun _ => true) 0 0 rfl hopen
    have hafter := entries_after_put (m + 1) () (fun _ => true) 0 0 rfl hopen
    have hoffered := offered_fresh (PoolRun.of capacity lifetime ops).pool (m + 1)
      (ops.length, ()) (by rw [hsound.lifetime_eq]; exact hlifetime)
      fun entry hentry => by
        have := (hkeys entry hentry).1
        omega
    have hentries : (PoolRun.of capacity lifetime (ops ++ [putNow (m + 1)])).pool.entries = _ :=
      (hafter.1 (by rw [hoffered, List.length_cons, hlength]; omega)).trans hoffered
    intro run
    refine ⟨hnext.1, ?_, ?_, ?_, fun entry hentry => ?_⟩
    · show (PoolRun.of capacity lifetime (ops ++ [putNow (m + 1)])).stored = _
      rw [show (PoolRun.of capacity lifetime (ops ++ [putNow (m + 1)])).stored = _ from hnext.2,
        hstored]
      omega
    · rw [hentries, List.length_cons, hlength]
    · rw [hentries]
      exact List.mem_cons_of_mem _ hfirst
    · rw [hentries] at hentry
      rcases List.mem_cons.mp hentry with rfl | hentry
      · refine ⟨le_rfl, m + 1, le_rfl, ?_⟩
        show (PoolRun.of capacity lifetime ops).pool.nextSequence = _
        rw [hsound.next_eq, hstored]
        congr 1
        omega
      · obtain ⟨hkey, j, hj, hseq⟩ := hkeys entry hentry
        exact ⟨by omega, j, by omega, hseq⟩

end

/-- After 2 ^ 64 stores the newest value has the least number, and it is the one that goes. -/
theorem not_evictsEarliest : ¬ ∀ (ops : List (PoolOp ℕ Unit)) (key : ℕ) (value : Unit)
    (reusable : Unit → Bool) (now stored : ℕ),
      EvictsEarliest idlePoolCapacity idlePoolLifetime ops key value reusable now stored := by
  intro h
  obtain ⟨n, hn⟩ : ∃ n, n + 64 = 2 ^ 64 := ⟨2 ^ 64 - 64, by norm_num⟩
  obtain ⟨hopen, hstored, hlength, hfirst, hkeys⟩ :=
    of_filled (by decide : 0 < idlePoolCapacity) (by decide : 0 < idlePoolLifetime) n 63 (by decide)
  generalize List.replicate (n + 1) (putNow 0) ++ (List.range 63).map (fun key => putNow (key + 1)) =
    ops at *
  have hsound := sound_of idlePoolCapacity idlePoolLifetime ops
  have hnext : (PoolRun.of idlePoolCapacity idlePoolLifetime ops).pool.nextSequence.toNat = 0 := by
    have hwrapped : n + 1 + 63 = 2 ^ 64 := by omega
    rw [hsound.next_eq, hstored, hwrapped, UInt64.toNat_ofNat', Nat.mod_self]
  have hoffered := offered_fresh (PoolRun.of idlePoolCapacity idlePoolLifetime ops).pool 64
    (ops.length, ()) (by rw [hsound.lifetime_eq]; decide)
    fun entry hentry => by
      have := (hkeys entry hentry).1
      omega
  obtain ⟨oldest, holdest, hleast, hafter⟩ := (entries_after_put 64 () (fun _ => true) 0 0 rfl hopen).2
      (by rw [hoffered, List.length_cons, hlength]; decide)
  rw [hoffered] at holdest hleast hafter
  have hnew : oldest.1 = 64 := by
    rcases List.mem_cons.mp holdest with rfl | hold
    · rfl
    · obtain ⟨-, j, hj, hseq⟩ := hkeys oldest hold
      have hzero := hleast _ List.mem_cons_self
      simp only [hnext, hseq, UInt64.toNat_ofNat'] at hzero
      omega
  have hgone := h ops 64 () (fun _ => true) 0 0 rfl hopen
  rw [hoffered] at hgone
  have hle := hgone _ List.mem_cons_self (by rw [hafter, hnew]; simp) _
    (List.mem_cons_of_mem _ hfirst)
  have hlength' := (hsound.tracked _ _ hfirst).index_lt
  simp only at hle hlength'
  omega

end Vhrn.Proxy
