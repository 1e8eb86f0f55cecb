import Mathlib.Data.List.Infix

/-!
# Successive messages

A stream that carries messages one after another, each of which says where it ends. `Messages` are the
messages that a parser finds at the start of a stream and what follows them. The stream alone determines
them: of two readings one goes on where the other stops (`Messages.continues`).
-/

namespace Vhrn

variable {α M : Type*}

/-- The messages at the start of a stream, one after another, and what follows the last of them. -/
inductive Messages (parse : List α → Option (M × List α)) : List α → List M → List α → Prop
  | nil (content : List α) : Messages parse content [] content
  | cons {content rest last : List α} {message : M} {messages : List M}
      (h : parse content = some (message, rest)) (hrest : Messages parse rest messages last) :
      Messages parse content (message :: messages) last

/-- What a parser finds it finds also when more follows. -/
def Extends (parse : List α → Option (M × List α)) : Prop :=
  ∀ ⦃content message rest⦄ (more : List α), parse content = some (message, rest) →
    parse (content ++ more) = some (message, rest ++ more)

/-- **No proper part of a message is a message.** -/
theorem Extends.eq_of_starts {parse : List α → Option (M × List α)} {content part rest : List α}
    {message message' : M} (h : Extends parse) (hwhole : parse content = some (message, []))
    (hstarts : part <+: content) (hpart : parse part = some (message', rest)) :
    part = content ∧ message' = message ∧ rest = [] := by
  obtain ⟨more, rfl⟩ := hstarts
  obtain ⟨rfl, hnil⟩ := Prod.mk.inj (Option.some.inj ((h more hpart).symm.trans hwhole))
  obtain ⟨rfl, rfl⟩ := List.append_eq_nil_iff.mp hnil
  exact ⟨(List.append_nil _).symm, rfl, rfl⟩

namespace Messages

variable {parse : List α → Option (M × List α)} {content rest last : List α} {message : M}
  {messages messages' : List M}

theorem append (h : Messages parse content messages rest) (h' : Messages parse rest messages' last) :
    Messages parse content (messages ++ messages') last := by
  induction h with
  | nil => exact h'
  | cons hparse _ ih => exact .cons hparse (ih h')

/-- One more message. -/
theorem concat (h : Messages parse content messages rest) (hnext : parse rest = some (message, last)) :
    Messages parse content (messages ++ [message]) last :=
  h.append (.cons hnext (.nil last))

/-- **Of two readings one goes on where the other stops.** -/
theorem continues (h : Messages parse content messages rest)
    (h' : Messages parse content messages' last) :
    (∃ later, messages' = messages ++ later ∧ Messages parse rest later last) ∨
      ∃ later, messages = messages' ++ later ∧ Messages parse last later rest := by
  induction h generalizing messages' with
  | nil content => exact .inl ⟨messages', rfl, h'⟩
  | cons hparse hrest ih =>
    cases h' with
    | nil => exact .inr ⟨_, rfl, .cons hparse hrest⟩
    | cons hparse' hrest' =>
      obtain ⟨rfl, rfl⟩ := Prod.mk.inj (Option.some.inj (hparse.symm.trans hparse'))
      rcases ih hrest' with ⟨later, rfl, hlater⟩ | ⟨later, rfl, hlater⟩
      · exact .inl ⟨later, rfl, hlater⟩
      · exact .inr ⟨later, rfl, hlater⟩

theorem eq_of_nil (h : Messages parse content [] rest) : content = rest := by
  cases h
  rfl

end Messages

/-! ## Replies -/

/-- Messages of a stream that are read one after another, each of them for a request. -/
inductive Replies {R : Type*} (reads : R → List α → M → List α → Prop) (content : List α) :
    List (R × M) → List α → Prop
  | nil : Replies reads content [] content
  | concat {rest last : List α} {replies : List (R × M)} {request : R} {message : M}
      (h : Replies reads content replies rest) (hnext : reads request rest message last) :
      Replies reads content (replies ++ [(request, message)]) last

/-- A text has at most one message for a request. -/
def Determined {R : Type*} (reads : R → List α → M → List α → Prop) : Prop :=
  ∀ ⦃request content message message' rest rest'⦄, reads request content message rest →
    reads request content message' rest' → message = message' ∧ rest = rest'

namespace Replies

variable {R : Type*} {reads : R → List α → M → List α → Prop} {content rest rest' : List α}
  {replies replies' : List (R × M)}

/-- **The replies to the same requests are the same**, where each of them is determined by its request. -/
theorem unique (hreads : Determined reads)
    (h : Replies reads content replies rest) (h' : Replies reads content replies' rest')
    (hrequests : replies.map Prod.fst = replies'.map Prod.fst) : replies = replies' ∧ rest = rest' := by
  induction h generalizing replies' rest' with
  | nil =>
    cases h' with
    | nil => exact ⟨rfl, rfl⟩
    | concat => simp at hrequests
  | concat h hnext ih =>
    cases h' with
    | nil => simp at hrequests
    | concat h' hnext' =>
      rw [List.map_append, List.map_append] at hrequests
      obtain ⟨hbefore, hlast⟩ := List.append_inj' hrequests rfl
      obtain rfl := List.singleton_inj.mp hlast
      obtain ⟨rfl, rfl⟩ := ih h' hbefore
      obtain ⟨rfl, rfl⟩ := hreads hnext hnext'
      exact ⟨rfl, rfl⟩

end Replies

end Vhrn
