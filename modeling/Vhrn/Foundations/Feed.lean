import Mathlib.Tactic

/-!
# Streams that arrive in pieces

A reader meets a stream in non-empty pieces (`Feed`) and keeps what it has read and not yet used in
a buffer (`Source`). The loops of a bounded reader have one shape: look at the buffer; stop when it
decides the matter; stop when the buffer has reached a limit; otherwise read once more, and stop when
nothing arrives. `Source.pass` is one turn of such a loop and `Source.fill` the loop.

What such a loop computes must not depend on the pieces. It does not when the scan is `Stable`, that
is when later elements never change a decision: `fill_fst` shows that the outcome is then the scan of
the first `limit` elements of the whole stream (`Fill.ofContent`), whatever the pieces.
-/

namespace Vhrn

variable {α β : Type*}

/-- A stream as its reader meets it: the non-empty pieces in which it arrives. -/
structure Feed (α : Type*) where
  pieces : List (List α)
  nonempty : ∀ piece ∈ pieces, piece ≠ []

namespace Feed

/-- Everything that is still to arrive. -/
def content (f : Feed α) : List α := f.pieces.flatten

/-- The feed from which nothing arrives. -/
def empty : Feed α := ⟨[], by simp⟩

/-- A stream that arrives at once. -/
def whole (xs : List α) : Feed α :=
  if h : xs = [] then empty else ⟨[xs], by simpa using h⟩

/-- One read into room for `n` elements: what arrives and the rest of the feed. A piece that does
not fit stays in part. -/
def read (f : Feed α) (n : ℕ) : List α × Feed α :=
  match f with
  | ⟨[], h⟩ => ([], ⟨[], h⟩)
  | ⟨piece :: rest, h⟩ =>
    if hn : piece.length ≤ n then (piece, ⟨rest, fun p hp => h p (by simp [hp])⟩)
    else (piece.take n, ⟨piece.drop n :: rest, by
      intro p hp
      rcases List.mem_cons.mp hp with rfl | hp
      · exact List.ne_nil_of_length_pos (by rw [List.length_drop]; omega)
      · exact h p (by simp [hp])⟩)

@[simp] theorem content_empty : (empty : Feed α).content = [] := rfl

@[simp] theorem content_whole (xs : List α) : (whole xs).content = xs := by
  unfold whole
  split <;> simp_all [content, empty]

theorem read_append (f : Feed α) (n : ℕ) : (f.read n).1 ++ (f.read n).2.content = f.content := by
  rcases f with ⟨_ | ⟨piece, rest⟩, h⟩
  · rfl
  · by_cases hn : piece.length ≤ n
    · simp [read, hn, content]
    · simp only [read, hn, ↓reduceDIte, content, List.flatten_cons]
      rw [← List.append_assoc, List.take_append_drop]

theorem length_read_le (f : Feed α) (n : ℕ) : (f.read n).1.length ≤ n := by
  rcases f with ⟨_ | ⟨piece, rest⟩, h⟩
  · exact Nat.zero_le n
  · by_cases hn : piece.length ≤ n
    · simp [read, hn]
    · simp only [read, hn, ↓reduceDIte, List.length_take]
      omega

/-- A read with room yields nothing only at the end of the stream. -/
theorem read_eq_nil {f : Feed α} {n : ℕ} (hn : 1 ≤ n) (h : (f.read n).1 = []) :
    f.content = [] := by
  rcases f with ⟨_ | ⟨piece, rest⟩, hne⟩
  · rfl
  · have hp := hne piece (by simp)
    by_cases hl : piece.length ≤ n
    · simp only [read, hl, ↓reduceDIte] at h
      exact absurd h hp
    · simp only [read, hl, ↓reduceDIte, List.take_eq_nil_iff] at h
      rcases h with h | h
      · omega
      · exact absurd h hp

theorem length_read_content_lt {f : Feed α} {n : ℕ} (h : (f.read n).1 ≠ []) :
    (f.read n).2.content.length < f.content.length := by
  have happ := congrArg List.length (read_append f n)
  have hpos := List.length_pos_of_ne_nil h
  rw [List.length_append] at happ
  omega

/-- A read of one element takes the first that is still to arrive. -/
theorem read_one {f : Feed α} {x : α} {xs : List α} (h : f.content = x :: xs) :
    ∃ rest, f.read 1 = ([x], rest) ∧ rest.content = xs := by
  have happ := read_append f 1
  have hle := length_read_le f 1
  have hne : (f.read 1).1 ≠ [] := fun hnil => by
    rw [read_eq_nil le_rfl hnil] at h
    cases h
  generalize f.read 1 = r at *
  obtain ⟨arrived, rest⟩ := r
  obtain ⟨y, ys, rfl⟩ : ∃ y ys, arrived = y :: ys := List.exists_cons_of_ne_nil hne
  have hys : ys = [] := by
    rw [List.length_cons] at hle
    exact List.length_eq_zero_iff.mp (by omega)
  subst hys
  rw [h] at happ
  obtain ⟨rfl, hrest⟩ := List.cons.inj happ
  exact ⟨rest, rfl, hrest⟩

end Feed

/-- A reader's buffer and the stream behind it. -/
structure Source (α : Type*) where
  buffered : List α
  incoming : Feed α

/-- How a bounded fill loop ends: with a decision, with a full buffer, or with the stream at its
end. -/
inductive Fill (β : Type*)
  | decided (r : β)
  | full
  | exhausted
  deriving DecidableEq

/-- One turn of a fill loop: it stops, or it goes on with a longer buffer. -/
inductive Pass (β σ : Type*)
  | stop (outcome : Fill β)
  | more (s : σ)

/-- Later elements do not change what the scan decides. -/
def Stable (scan : List α → Option β) : Prop :=
  ∀ p q r, scan p = some r → scan (p ++ q) = some r

/-- The outcome of a fill loop as a function of the whole stream. -/
def Fill.ofContent (scan : List α → Option β) (limit : ℕ) (content : List α) : Fill β :=
  match scan (content.take limit) with
  | some r => .decided r
  | none => if limit ≤ content.length then .full else .exhausted

namespace Source

/-- Everything not yet used: the buffer, then what is still to arrive. -/
def content (s : Source α) : List α := s.buffered ++ s.incoming.content

/-- Give up the first `n` buffered elements. -/
def consume (s : Source α) (n : ℕ) : Source α := { s with buffered := s.buffered.drop n }

theorem content_consume {s : Source α} {n : ℕ} (h : n ≤ s.buffered.length) :
    (s.consume n).content = s.content.drop n := by
  rw [content, content, consume, List.drop_append_of_le_length h]

/-- One turn of a fill loop. `room k` is the room offered to a read when `k` elements are
buffered. -/
def pass (scan : List α → Option β) (limit : ℕ) (room : ℕ → ℕ) (s : Source α) :
    Pass β (Source α) :=
  match scan s.buffered with
  | some r => .stop (.decided r)
  | none =>
    if limit ≤ s.buffered.length then .stop .full
    else
      let read := s.incoming.read (room s.buffered.length)
      if read.1.isEmpty then .stop .exhausted
      else .more ⟨s.buffered ++ read.1, read.2⟩

/-! ## Taking what is there -/

/-- Takes up to `most` elements of what is buffered; when nothing is, what one read into room for
`room` elements yields. -/
def takeSome (most room : ℕ) (s : Source α) : List α × Source α :=
  if s.buffered.isEmpty then
    let (arrived, incoming) := s.incoming.read room
    (arrived, { s with incoming })
  else (s.buffered.take most, s.consume (min most s.buffered.length))

/-- What is taken comes first in the stream. -/
theorem content_takeSome (most room : ℕ) (s : Source α) :
    (takeSome most room s).1 ++ (takeSome most room s).2.content = s.content := by
  unfold takeSome
  split
  · rename_i hempty
    show (s.incoming.read _).1 ++ (s.buffered ++ (s.incoming.read _).2.content) = s.content
    rw [content, List.isEmpty_iff.mp hempty, List.nil_append, List.nil_append, Feed.read_append]
  · show s.buffered.take most ++ (s.consume _).content = s.content
    rw [content_consume (Nat.min_le_right _ _), content,
      List.drop_append_of_le_length (Nat.min_le_right _ _), ← List.append_assoc,
      List.take_eq_take_min, List.take_append_drop]

/-- Whatever is taken leaves less of the stream. -/
theorem length_content_takeSome {most room : ℕ} {s s' : Source α} {taken : List α}
    (h : takeSome most room s = (taken, s')) (hne : taken ≠ []) :
    s'.content.length < s.content.length := by
  have hcontent := content_takeSome most room s
  have hpos := List.length_pos_of_ne_nil hne
  rw [h] at hcontent
  rw [← hcontent, List.length_append]
  show s'.content.length < taken.length + s'.content.length
  omega

/-- What is taken, with what stays buffered, was buffered before or is within the room of one read. -/
theorem length_takeSome {most room : ℕ} (hle : room ≤ most) (s : Source α) :
    (takeSome most room s).1.length ≤ most ∧
      (takeSome most room s).1.length + (takeSome most room s).2.buffered.length ≤
        max room s.buffered.length := by
  unfold takeSome
  split
  · rename_i hempty
    have hread := Feed.length_read_le s.incoming room
    refine ⟨hread.trans hle, ?_⟩
    show (s.incoming.read room).1.length + s.buffered.length ≤ _
    rw [List.isEmpty_iff.mp hempty, List.length_nil]
    omega
  · refine ⟨?_, ?_⟩
    · rw [List.length_take]
      exact Nat.min_le_left _ _
    · show (s.buffered.take _).length + (s.buffered.drop _).length ≤ _
      rw [List.length_take, List.length_drop]
      omega

/-- There is something to take unless the stream is at its end. -/
theorem takeSome_spec {most room : ℕ} (hmost : 1 ≤ most) (hroom : 1 ≤ room) (s : Source α) :
    (takeSome most room s).2.buffered.length ≤ s.buffered.length ∧
      ((takeSome most room s).1 = [] → s.content = []) := by
  unfold takeSome
  split
  · rename_i hempty
    refine ⟨le_rfl, fun hread => ?_⟩
    rw [content, List.isEmpty_iff.mp hempty, List.nil_append]
    exact Feed.read_eq_nil hroom hread
  · rename_i hempty
    refine ⟨?_, fun hnil => ?_⟩
    · show (s.buffered.drop _).length ≤ _
      rw [List.length_drop]
      omega
    · rcases List.take_eq_nil_iff.mp hnil with hzero | hnone
      · omega
      · exact absurd (List.isEmpty_iff.mpr hnone) hempty

section Fill

variable {scan : List α → Option β} {limit : ℕ} {room : ℕ → ℕ}

/-- What a turn that goes on did: the scan was undecided below the limit, and one non-empty read was
appended to the buffer. -/
theorem pass_more {s s' : Source α} (h : pass scan limit room s = .more s') :
    scan s.buffered = none ∧ s.buffered.length < limit ∧
      ∃ arrived rest, s.incoming.read (room s.buffered.length) = (arrived, rest) ∧
        arrived ≠ [] ∧ s' = ⟨s.buffered ++ arrived, rest⟩ := by
  unfold pass at h
  split at h
  · cases h
  · rename_i hscan
    split at h
    · cases h
    · rename_i hlim
      simp only [List.isEmpty_iff] at h
      split at h
      · cases h
      · rename_i harr
        cases h
        exact ⟨hscan, by omega, _, _, rfl, harr, rfl⟩

/-- What a turn that stops found. -/
theorem pass_stop {s : Source α} {o : Fill β} (h : pass scan limit room s = .stop o) :
    (∃ r, scan s.buffered = some r ∧ o = .decided r) ∨
      (scan s.buffered = none ∧ limit ≤ s.buffered.length ∧ o = .full) ∨
      (scan s.buffered = none ∧ s.buffered.length < limit ∧
        (s.incoming.read (room s.buffered.length)).1 = [] ∧ o = .exhausted) := by
  unfold pass at h
  split at h
  · rename_i r hscan
    cases h
    exact .inl ⟨r, hscan, rfl⟩
  · rename_i hscan
    split at h
    · rename_i hlim
      cases h
      exact .inr (.inl ⟨hscan, hlim, rfl⟩)
    · rename_i hlim
      simp only [List.isEmpty_iff] at h
      split at h
      · rename_i harr
        cases h
        exact .inr (.inr ⟨hscan, by omega, harr, rfl⟩)
      · cases h

theorem content_pass_more {s s' : Source α} (h : pass scan limit room s = .more s') :
    s'.content = s.content := by
  obtain ⟨-, -, arrived, rest, hread, -, rfl⟩ := pass_more h
  have happ := Feed.read_append s.incoming (room s.buffered.length)
  rw [hread] at happ
  simp only [content, List.append_assoc, happ]

theorem incoming_pass_more {s s' : Source α} (h : pass scan limit room s = .more s') :
    s'.incoming.content.length < s.incoming.content.length := by
  obtain ⟨-, -, arrived, rest, hread, harr, rfl⟩ := pass_more h
  have hlt := Feed.length_read_content_lt (f := s.incoming) (n := room s.buffered.length)
    (by rw [hread]; exact harr)
  rwa [hread] at hlt

/-- The loop: turns until one stops. -/
def fill (scan : List α → Option β) (limit : ℕ) (room : ℕ → ℕ) (s : Source α) :
    Fill β × Source α :=
  match _h : pass scan limit room s with
  | .stop o => (o, s)
  | .more s' => fill scan limit room s'
  termination_by s.incoming.content.length
  decreasing_by exact incoming_pass_more _h

theorem fill_of_stop {s : Source α} {o : Fill β} (h : pass scan limit room s = .stop o) :
    fill scan limit room s = (o, s) := by
  rw [fill]
  split <;> simp_all

theorem fill_of_more {s s' : Source α} (h : pass scan limit room s = .more s') :
    fill scan limit room s = fill scan limit room s' := by
  rw [fill]
  split <;> simp_all

variable (scan limit room) in
/-- Induction over the turns of a fill loop. -/
theorem fill_induction {motive : Source α → Prop}
    (stop : ∀ s o, pass scan limit room s = .stop o → motive s)
    (more : ∀ s s', pass scan limit room s = .more s' → motive s' → motive s) (s : Source α) :
    motive s := by
  induction hn : s.incoming.content.length using Nat.strongRecOn generalizing s with
  | ind n ih =>
    cases h : pass scan limit room s with
    | stop o => exact stop s o h
    | more s' => exact more s s' h (ih _ (hn ▸ incoming_pass_more h) s' rfl)

/-- A fill loop loses nothing. -/
theorem content_fill (s : Source α) : (fill scan limit room s).2.content = s.content := by
  induction s using fill_induction scan limit room with
  | stop s o h => rw [fill_of_stop h]
  | more s s' h ih => rw [fill_of_more h, ih, content_pass_more h]

theorem scan_fill {s : Source α} {r : β} (h : (fill scan limit room s).1 = .decided r) :
    scan (fill scan limit room s).2.buffered = some r := by
  induction s using fill_induction scan limit room with
  | stop s o hp =>
    rw [fill_of_stop hp] at h ⊢
    rcases pass_stop hp with ⟨r', hr, rfl⟩ | ⟨-, -, rfl⟩ | ⟨-, -, -, rfl⟩
    · rw [hr]
      exact congrArg some (Fill.decided.inj h)
    · cases h
    · cases h
  | more s s' hp ih =>
    rw [fill_of_more hp] at h ⊢
    exact ih h

/-- The room a read is offered never exceeds the limit, and there is some below it. -/
def RoomWithin (room : ℕ → ℕ) (limit : ℕ) : Prop :=
  ∀ k < limit, 1 ≤ room k ∧ k + room k ≤ limit

theorem length_pass_more (hroom : RoomWithin room limit) {s s' : Source α}
    (h : pass scan limit room s = .more s') : s'.buffered.length ≤ limit := by
  obtain ⟨-, hlim, arrived, rest, hread, -, rfl⟩ := pass_more h
  have hle : arrived.length ≤ room s.buffered.length := by
    simpa [hread] using Feed.length_read_le s.incoming (room s.buffered.length)
  have hwithin := (hroom _ hlim).2
  rw [List.length_append]
  omega

theorem length_fill_le (hroom : RoomWithin room limit) {s : Source α}
    (hs : s.buffered.length ≤ limit) : (fill scan limit room s).2.buffered.length ≤ limit := by
  induction s using fill_induction scan limit room with
  | stop s o h => rwa [fill_of_stop h]
  | more s s' h ih =>
    rw [fill_of_more h]
    exact ih (length_pass_more hroom h)

/-- A loop that cannot decide on nothing leaves an empty buffer only at the end of an empty stream. -/
theorem content_eq_nil_of_fill (hroom : RoomWithin room limit) (hlimit : 0 < limit)
    (hnil : scan [] = none) {s : Source α} (h : (fill scan limit room s).2.buffered = []) :
    s.content = [] := by
  induction s using fill_induction scan limit room with
  | stop s o hp =>
    rw [fill_of_stop hp] at h
    have hs : s.buffered = [] := h
    rcases pass_stop hp with ⟨r, hr, -⟩ | ⟨-, hle, -⟩ | ⟨-, hlt, hread, -⟩
    · rw [hs, hnil] at hr
      cases hr
    · rw [hs, List.length_nil] at hle
      omega
    · rw [content, hs, Feed.read_eq_nil (hroom _ hlt).1 hread]
      rfl
  | more s s' hp ih =>
    rw [fill_of_more hp] at h
    rw [← content_pass_more hp]
    exact ih h

variable (scan limit) in
/-- A decision is found at once, or right after a read: without that read the scan was
undecided. -/
theorem fill_last_read {bound : ℕ} (hbound : ∀ k, room k ≤ bound) (s : Source α) :
    fill scan limit room s = ((fill scan limit room s).1, s) ∨
      ∃ before arrived, (fill scan limit room s).2.buffered = before ++ arrived ∧
        arrived.length ≤ bound ∧ scan before = none := by
  induction s using fill_induction scan limit room with
  | stop s o h => exact .inl (by rw [fill_of_stop h])
  | more s s' h ih =>
    rw [fill_of_more h]
    obtain ⟨hscan, -, arrived, rest, hread, -, rfl⟩ := pass_more h
    have hle := (Feed.length_read_le s.incoming (room s.buffered.length)).trans (hbound _)
    rw [hread] at hle
    rcases ih with hstop | hlater
    · rw [hstop]
      exact .inr ⟨_, _, rfl, hle, hscan⟩
    · exact .inr hlater

/-- **The outcome of a fill loop does not depend on the pieces.** With a stable scan it is the
outcome on the whole stream, cut at the limit. -/
theorem fill_fst (hstable : Stable scan) (hroom : RoomWithin room limit) {s : Source α}
    (hs : s.buffered.length ≤ limit) :
    (fill scan limit room s).1 = Fill.ofContent scan limit s.content := by
  induction s using fill_induction scan limit room with
  | stop s o h =>
    have htake : s.content.take limit =
        s.buffered ++ s.incoming.content.take (limit - s.buffered.length) := by
      rw [content, List.take_append, List.take_of_length_le hs]
    rw [fill_of_stop h]
    rcases pass_stop h with ⟨r, hr, rfl⟩ | ⟨hscan, hlim, rfl⟩ | ⟨hscan, hlim, hread, rfl⟩
    · rw [Fill.ofContent, htake, hstable _ _ _ hr]
    · have hfull : limit - s.buffered.length = 0 := by omega
      rw [Fill.ofContent, htake, hfull, List.take_zero, List.append_nil, hscan]
      simp only [content, List.length_append]
      rw [if_pos (by omega)]
    · have hend := Feed.read_eq_nil (hroom _ hlim).1 hread
      rw [Fill.ofContent, htake, hend, List.take_nil, List.append_nil, hscan]
      simp only [content, hend, List.append_nil]
      rw [if_neg (by omega)]
  | more s s' h ih =>
    rw [fill_of_more h, ih (length_pass_more hroom h), content_pass_more h]

end Fill

end Source

/-! ## Loops under way -/

/-- A fill loop: what it looks for, its limit and the room of its reads, which there is below the limit. -/
structure FillLoop (α : Type*) where
  Decision : Type*
  scan : List α → Option Decision
  limit : ℕ
  room : ℕ → ℕ
  within : Source.RoomWithin room limit

namespace FillLoop

variable (loop : FillLoop α)

/-- The room of the read that the loop makes next; `none` when it stops without one. -/
def offers (buffered : List α) : Option ℕ :=
  match loop.scan buffered with
  | some _ => none
  | none => if loop.limit ≤ buffered.length then none else some (loop.room buffered.length)

/-- The loop goes on with one read. -/
def Reads (s s' : Source α) : Prop := s.pass loop.scan loop.limit loop.room = .more s'

variable {loop} {s s' : Source α}

/-- **No read is offered without room.** -/
theorem offers_pos {buffered : List α} {n : ℕ} (h : loop.offers buffered = some n) : 1 ≤ n := by
  unfold offers at h
  split at h
  · cases h
  · split at h
    · cases h
    · rename_i hlt
      obtain rfl := Option.some.inj h
      exact (loop.within _ (Nat.not_le.mp hlt)).1

theorem length_of_reads (h : loop.Reads s s') : s'.buffered.length ≤ loop.limit :=
  Source.length_pass_more loop.within h

theorem fill_of_reads (h : loop.Reads s s') :
    s.fill loop.scan loop.limit loop.room = s'.fill loop.scan loop.limit loop.room :=
  Source.fill_of_more h

end FillLoop

end Vhrn
