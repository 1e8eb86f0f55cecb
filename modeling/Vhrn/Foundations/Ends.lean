import Vhrn.Foundations.Feed

/-!
# Searching for an end

A bounded reader looks for the end of a syntax element in what it has buffered and checks what it has
before it reads on. `Finds` says that a search is for an end: what follows does not move an end that
was found, and an end that was not found is later. With a check that no continuation can mend
(`Closed`), the decision of the search is `Stable`, so it does not depend on how much is buffered when
it is made. A `Search` is both with the errors of a bounded reader.
-/

namespace Vhrn

variable {α : Type*}

/-- A search for the length of the element at the start. -/
structure Finds (find : List α → Option ℕ) : Prop where
  append : ∀ {p n}, find p = some n → ∀ q, find (p ++ q) = some n
  le : ∀ {p n}, find p = some n → n ≤ p.length
  later : ∀ {p q n}, find p = none → find (p ++ q) = some n → p.length < n

/-- A check that fails for every continuation of what it fails for. -/
def Closed (check : List α → Bool) : Prop := ∀ p q, check (p ++ q) = true → check p = true

/-- What has been seen of the element: all of it, or all there is. -/
def seen (find : List α → Option ℕ) (available : List α) : List α :=
  available.take ((find available).getD available.length)

section

variable {find : List α → Option ℕ} {check : List α → Bool}

theorem seen_of_some {p : List α} {n : ℕ} (h : find p = some n) : seen find p = p.take n := by
  rw [seen, h, Option.getD_some]

theorem seen_of_none {p : List α} (h : find p = none) : seen find p = p := by
  rw [seen, h, Option.getD_none, List.take_length]

/-- What is seen of a longer buffer extends what is seen of a shorter one. -/
theorem seen_append (hf : Finds find) (p q : List α) : ∃ r, seen find (p ++ q) = seen find p ++ r := by
  cases hp : find p with
  | some n =>
    rw [seen_of_some hp, seen_of_some (hf.append hp q), List.take_append_of_le_length (hf.le hp)]
    exact ⟨[], (List.append_nil _).symm⟩
  | none =>
    rw [seen_of_none hp]
    cases hpq : find (p ++ q) with
    | none => exact ⟨q, seen_of_none hpq⟩
    | some n =>
      have hlt := hf.later hp hpq
      rw [seen_of_some hpq, List.take_append, List.take_of_length_le (by omega)]
      exact ⟨_, rfl⟩

theorem seen_eq_of_some (hf : Finds find) {p : List α} {n : ℕ} (h : find p = some n) (q : List α) :
    seen find (p ++ q) = seen find p := by
  rw [seen_of_some h, seen_of_some (hf.append h q), List.take_append_of_le_length (hf.le h)]

/-- A search that starts after the first elements. -/
theorem Finds.drop (hf : Finds find) (hnil : find [] = none) (k : ℕ) :
    Finds fun s => (find (s.drop k)).map (k + ·) where
  append h q := by
    obtain ⟨n, hn, rfl⟩ := Option.map_eq_some_iff.mp h
    rw [List.drop_append, hf.append hn]
    rfl
  le {p _} h := by
    obtain ⟨n, hn, rfl⟩ := Option.map_eq_some_iff.mp h
    have hle := hf.le hn
    rw [List.length_drop] at hle
    have hk : k < p.length := by
      by_contra hk
      rw [List.drop_eq_nil_of_le (by omega), hnil] at hn
      cases hn
    show k + n ≤ p.length
    omega
  later {p q _} hp h := by
    obtain ⟨n, hn, rfl⟩ := Option.map_eq_some_iff.mp h
    rw [List.drop_append] at hn
    have hlt := hf.later (Option.map_eq_none_iff.mp hp) hn
    rw [List.length_drop] at hlt
    show p.length < k + n
    omega

/-- A failed check is not mended by what follows. -/
theorem check_seen (hf : Finds find) (hc : Closed check) {p : List α}
    (h : check (seen find p) = false) (q : List α) : check (seen find (p ++ q)) = false := by
  obtain ⟨r, hr⟩ := seen_append hf p q
  rw [← Bool.not_eq_true] at h ⊢
  rw [hr]
  exact fun hcheck => h (hc _ r hcheck)

end

/-! ## Bounded searches -/

/-- A search for an end with its check, and the errors for what fails the check, for an element that is
too long, and for a stream that ends before the element does. -/
structure Search (α ε : Type*) where
  find : List α → Option ℕ
  check : List α → Bool
  refused : ε
  tooLong : ε
  ended : ε
  finds : Finds find
  closed : Closed check

namespace Search

variable {ε : Type*} (search : Search α ε) (limit : ℕ)

/-- The decision on what is buffered: a refusal, or the length of an element within the limit. -/
def scan (available : List α) : Option (Except ε ℕ) :=
  if !search.check (seen search.find available) then some (.error search.refused)
  else (search.find available).map fun n => if limit < n then .error search.tooLong else .ok n

/-- **The decision does not depend on what follows.** -/
theorem stable_scan : Stable (search.scan limit) := by
  intro p q r h
  unfold scan at h ⊢
  cases hcheck : search.check (seen search.find p) with
  | false =>
    rw [hcheck] at h
    rw [check_seen search.finds search.closed hcheck q]
    exact h
  | true =>
    rw [hcheck] at h
    obtain ⟨n, hn, rfl⟩ := Option.map_eq_some_iff.mp h
    rw [seen_eq_of_some search.finds hn q, hcheck, search.finds.append hn q]
    rfl

/-- The result of a loop that searches within the limit. -/
def result : Fill (Except ε ℕ) → Except ε ℕ
  | .decided result => result
  | .full => .error search.tooLong
  | .exhausted => .error search.ended

/-- The length of the element at the start of a stream, by reads of the given room. -/
def read (room : ℕ → ℕ) (s : Source α) : Except ε ℕ × Source α :=
  let (outcome, s) := s.fill (search.scan limit) limit room
  (search.result outcome, s)

/-- The length of the element at the start of a stream that is there as a whole. -/
def ofContent (content : List α) : Except ε ℕ :=
  search.result (Fill.ofContent (search.scan limit) limit content)

variable {search limit} {room : ℕ → ℕ} {s : Source α}

theorem find_of_scan {available : List α} {n : ℕ} (h : search.scan limit available = some (.ok n)) :
    search.find available = some n ∧ n ≤ limit := by
  unfold scan at h
  split at h
  · cases h
  · obtain ⟨m, hm, heq⟩ := Option.map_eq_some_iff.mp h
    split at heq
    · cases heq
    · rename_i hle
      obtain rfl := Except.ok.inj heq
      exact ⟨hm, Nat.not_lt.mp hle⟩

theorem decided_of_result {outcome : Fill (Except ε ℕ)} {n : ℕ}
    (h : search.result outcome = .ok n) : outcome = .decided (.ok n) := by
  cases outcome with
  | decided r => exact congrArg Fill.decided h
  | full => cases h
  | exhausted => cases h

/-- A search that is decided by what is buffered reads nothing. -/
theorem read_of_scan {result : Except ε ℕ} (h : search.scan limit s.buffered = some result) :
    search.read limit room s = (result, s) := by
  have hpass : s.pass (search.scan limit) limit room = .stop (.decided result) := by
    rw [Source.pass, h]
  rw [read, Source.fill_of_stop hpass]
  rfl

variable (search limit) in
theorem content_read (room : ℕ → ℕ) (s : Source α) :
    (search.read limit room s).2.content = s.content := Source.content_fill s

variable (search) in
/-- **What is found does not depend on the pieces.** -/
theorem read_fst (hroom : Source.RoomWithin room limit) (hs : s.buffered.length ≤ limit) :
    (search.read limit room s).1 = search.ofContent limit s.content :=
  congrArg search.result (Source.fill_fst (search.stable_scan limit) hroom hs)

theorem find_of_read {n : ℕ} (h : (search.read limit room s).1 = .ok n) :
    search.find (search.read limit room s).2.buffered = some n ∧ n ≤ limit :=
  find_of_scan (Source.scan_fill (decided_of_result h))

/-- An element that is found is in the buffer. -/
theorem le_of_read {n : ℕ} (h : (search.read limit room s).1 = .ok n) :
    n ≤ (search.read limit room s).2.buffered.length := search.finds.le (find_of_read h).1

theorem take_of_read {n : ℕ} (h : (search.read limit room s).1 = .ok n) :
    (search.read limit room s).2.buffered.take n = s.content.take n := by
  rw [← content_read search limit room s, Source.content, List.take_append_of_le_length (le_of_read h)]

variable (search) in
theorem length_read_le (hroom : Source.RoomWithin room limit) (hs : s.buffered.length ≤ limit) :
    (search.read limit room s).2.buffered.length ≤ limit := Source.length_fill_le hroom hs

/-- What is buffered after the element was there before, or arrived with the last read. -/
theorem length_after_read {bound n : ℕ} (hbound : ∀ k, room k ≤ bound)
    (hs : s.buffered.length ≤ bound) (h : (search.read limit room s).1 = .ok n) :
    (search.read limit room s).2.buffered.length ≤ n + bound := by
  have hfind := (find_of_read h).1
  unfold read at h hfind ⊢
  rcases Source.fill_last_read (search.scan limit) limit hbound s with
    hsame | ⟨before, arrived, hbuffered, hlen, hnone⟩
  · rw [hsame]
    show s.buffered.length ≤ n + bound
    omega
  · simp only [hbuffered] at hfind ⊢
    unfold scan at hnone
    split at hnone
    · cases hnone
    · have hlt := search.finds.later (Option.map_eq_none_iff.mp hnone) hfind
      rw [List.length_append]
      omega

/-- The content after an element that is found. -/
theorem content_consume_read {n : ℕ} (h : (search.read limit room s).1 = .ok n) :
    ((search.read limit room s).2.consume n).content = s.content.drop n := by
  rw [Source.content_consume (le_of_read h), content_read]

theorem ofContent_le {content : List α} {n : ℕ} (h : search.ofContent limit content = .ok n) :
    search.find (content.take limit) = some n ∧ n ≤ content.length := by
  have hdecided := decided_of_result h
  unfold Fill.ofContent at hdecided
  split at hdecided
  · rename_i r hr
    obtain rfl := Fill.decided.inj hdecided
    have hfind := (find_of_scan hr).1
    refine ⟨hfind, (search.finds.le hfind).trans ?_⟩
    rw [List.length_take]
    omega
  · split at hdecided <;> cases hdecided

/-- What is found is found also when more follows. -/
theorem ofContent_append {content : List α} {n : ℕ} (h : search.ofContent limit content = .ok n)
    (more : List α) : search.ofContent limit (content ++ more) = .ok n := by
  have hdecided := decided_of_result h
  unfold Fill.ofContent at hdecided
  split at hdecided
  · rename_i r hr
    obtain rfl := Fill.decided.inj hdecided
    have hscan := search.stable_scan limit _ (more.take (limit - content.length)) _ hr
    rw [← List.take_append] at hscan
    rw [ofContent, Fill.ofContent, hscan]
    rfl
  · split at hdecided <;> cases hdecided

/-- **An element that stands at the start and passes the check is found**, unless it is too long. -/
theorem ofContent_of_find {content : List α} {n : ℕ} (h : search.find content = some n)
    (hcheck : search.check (content.take n) = true) :
    search.ofContent limit content = if limit < n then .error search.tooLong else .ok n := by
  have hle := search.finds.le h
  have hwhole : search.find (content.take limit ++ content.drop limit) = some n := by
    rw [List.take_append_drop, h]
  by_cases hlimit : limit < n
  · have hnone : search.find (content.take limit) = none := by
      cases hfind : search.find (content.take limit) with
      | none => rfl
      | some m =>
        have happ := search.finds.append hfind (content.drop limit)
        obtain rfl := Option.some.inj (happ.symm.trans hwhole)
        have hm := search.finds.le hfind
        rw [List.length_take] at hm
        omega
    have hpart : search.check (content.take limit) = true := by
      refine search.closed _ ((content.take n).drop limit) ?_
      have hstarts : content.take limit = (content.take n).take limit := by
        rw [List.take_take, Nat.min_eq_left (by omega)]
      rw [hstarts, List.take_append_drop]
      exact hcheck
    have hscan : search.scan limit (content.take limit) = none := by
      unfold scan
      rw [seen_of_none hnone, hpart, hnone]
      rfl
    rw [if_pos hlimit, ofContent, Fill.ofContent, hscan]
    simp only
    rw [if_pos (by omega)]
    rfl
  · have hfind : search.find (content.take limit) = some n := by
      cases hfind : search.find (content.take limit) with
      | none =>
        have hlater := search.finds.later hfind hwhole
        rw [List.length_take] at hlater
        omega
      | some m => rw [← search.finds.append hfind (content.drop limit), hwhole]
    have hscan : search.scan limit (content.take limit) = some (.ok n) := by
      unfold scan
      rw [seen_of_some hfind, List.take_take, Nat.min_eq_left (by omega), hcheck, hfind]
      simp [hlimit]
    rw [if_neg hlimit, ofContent, Fill.ofContent, hscan]
    rfl

/-- The loop of a search. -/
def loop (search : Search α ε) (limit : ℕ) (room : ℕ → ℕ) (within : Source.RoomWithin room limit) :
    FillLoop α :=
  { Decision := Except ε ℕ, scan := search.scan limit, limit, room, within }

/-- What is found does not depend on the reads that have been made. -/
theorem read_of_reads {within : Source.RoomWithin room limit} {s' : Source α}
    (h : (search.loop limit room within).Reads s s') :
    search.read limit room s = search.read limit room s' := by
  unfold read
  rw [show s.fill (search.scan limit) limit room = s'.fill (search.scan limit) limit room from
    FillLoop.fill_of_reads h]

/-! ### Errors of another reader -/

/-- The same search with other errors. -/
def mapError {ε' : Type*} (f : ε → ε') (search : Search α ε) : Search α ε' where
  find := search.find
  check := search.check
  refused := f search.refused
  tooLong := f search.tooLong
  ended := f search.ended
  finds := search.finds
  closed := search.closed

theorem scan_mapError {ε' : Type*} (f : ε → ε') (search : Search α ε) (limit : ℕ)
    (available : List α) :
    (search.mapError f).scan limit available =
      (search.scan limit available).map (Except.mapError f) := by
  unfold scan
  show (if !search.check (seen search.find available) then _ else _) = _
  split
  · rfl
  · show (search.find available).map _ = ((search.find available).map _).map _
    rw [Option.map_map]
    congr 1
    funext n
    show (if limit < n then _ else _) = Except.mapError f (if limit < n then _ else _)
    split <;> rfl

/-- **Only the errors of the search differ.** -/
theorem ofContent_mapError {ε' : Type*} (f : ε → ε') (search : Search α ε) (limit : ℕ)
    (content : List α) :
    (search.mapError f).ofContent limit content =
      (search.ofContent limit content).mapError f := by
  unfold ofContent Fill.ofContent
  rw [scan_mapError]
  cases search.scan limit (content.take limit) with
  | some result => rfl
  | none =>
    show result _ (if _ then _ else _) = Except.mapError f (result _ (if _ then _ else _))
    split <;> rfl

end Search

/-! ## The first occurrence of a sequence -/

section

variable [DecidableEq α] {pat : List α}

/-- The position of the first occurrence. -/
def findSeq (pat : List α) : List α → Option ℕ
  | [] => if pat = [] then some 0 else none
  | a :: s => if pat <+: a :: s then some 0 else (findSeq pat s).map (· + 1)

theorem length_le_of_findSeq {s : List α} {n : ℕ} (h : findSeq pat s = some n) :
    n + pat.length ≤ s.length := by
  induction s generalizing n with
  | nil =>
    obtain ⟨rfl, h⟩ := Option.ite_none_right_eq_some.mp h
    obtain rfl := Option.some.inj h
    exact le_rfl
  | cons a s ih =>
    unfold findSeq at h
    split at h
    · rename_i hpre
      obtain rfl := Option.some.inj h
      rw [Nat.zero_add]
      exact hpre.length_le
    · obtain ⟨m, hm, rfl⟩ := Option.map_eq_some_iff.mp h
      have hle := ih hm
      rw [List.length_cons]
      omega

omit [DecidableEq α] in
/-- A sequence that fits into the first part of a text starts there when it starts the text. -/
theorem prefix_of_prefix_append {p q : List α} (h : pat <+: p ++ q) (hle : pat.length ≤ p.length) :
    pat <+: p := List.prefix_of_prefix_length_le h (List.prefix_append p q) hle

theorem findSeq_append {p : List α} {n : ℕ} (h : findSeq pat p = some n) (q : List α) :
    findSeq pat (p ++ q) = some n := by
  induction p generalizing n with
  | nil =>
    obtain ⟨rfl, h⟩ := Option.ite_none_right_eq_some.mp h
    obtain rfl := Option.some.inj h
    cases q with
    | nil => rfl
    | cons a q => exact if_pos (List.nil_prefix)
  | cons a p ih =>
    have hfits := length_le_of_findSeq h
    unfold findSeq at h
    rw [List.cons_append, findSeq]
    split at h
    · rename_i hpre
      have hq : pat <+: a :: (p ++ q) := hpre.trans (List.prefix_append (a :: p) q)
      rw [if_pos hq]
      exact h
    · rename_i hpre
      obtain ⟨m, hm, rfl⟩ := Option.map_eq_some_iff.mp h
      have hq : ¬ pat <+: a :: (p ++ q) := fun hq =>
        hpre (prefix_of_prefix_append (q := q) hq (by omega))
      rw [if_neg hq, ih hm]
      rfl

theorem length_lt_of_findSeq (hpat : pat ≠ []) {p q : List α} {n : ℕ} (hp : findSeq pat p = none)
    (h : findSeq pat (p ++ q) = some n) : p.length < n + pat.length := by
  have hpos := List.length_pos_of_ne_nil hpat
  induction p generalizing n with
  | nil =>
    rw [List.length_nil]
    omega
  | cons a p ih =>
    unfold findSeq at hp
    rw [List.cons_append, findSeq] at h
    split at hp
    · cases hp
    · rename_i hpre
      rw [List.length_cons]
      split at h
      · rename_i hq
        by_contra hle
        exact hpre (prefix_of_prefix_append (q := q) hq (by rw [List.length_cons]; omega))
      · obtain ⟨m, hm, rfl⟩ := Option.map_eq_some_iff.mp h
        have hlt := ih (Option.map_eq_none_iff.mp hp) hm
        omega

/-- **The end of the first occurrence of a sequence can be searched for.** -/
theorem finds_findSeq (hpat : pat ≠ []) : Finds fun s => (findSeq pat s).map (· + pat.length) where
  append h q := by
    obtain ⟨m, hm, rfl⟩ := Option.map_eq_some_iff.mp h
    rw [findSeq_append hm q]
    rfl
  le h := by
    obtain ⟨m, hm, rfl⟩ := Option.map_eq_some_iff.mp h
    exact length_le_of_findSeq hm
  later hp h := by
    obtain ⟨m, hm, rfl⟩ := Option.map_eq_some_iff.mp h
    exact length_lt_of_findSeq hpat (Option.map_eq_none_iff.mp hp) hm

end

end Vhrn
