import Vhrn.Foundations.Copying
import Vhrn.Foundations.Bytes
import Vhrn.Foundations.Feed

/-!
# Tunnels

A tunnel copies the octets of its two peers in both directions at once. Each direction first writes what
was read ahead of it, then reads and writes in turns, and shuts its writer down when its reader has come
to its end. The two directions take their steps in any order; `relay_lossless` says that, in any order,
each peer is given all octets of the other in their order.
-/

namespace Vhrn.Proxy

def relayBufferBytes : ℕ := 32 * 1024

def maxDirectionBufferBytes : ℕ := 64 * 1024

def maxPrefixBytes : ℕ := maxDirectionBufferBytes - relayBufferBytes

/-- The streams of a tunnel and what was read ahead of them. -/
structure TunnelParts where
  downstream : Feed UInt8
  downstreamPrefix : Bytes
  upstream : Feed UInt8
  upstreamPrefix : Bytes

/-- What the origin is to be given. -/
def TunnelParts.toUpstream (parts : TunnelParts) : Bytes :=
  parts.downstreamPrefix ++ parts.downstream.content

/-- What the client is to be given. -/
def TunnelParts.toDownstream (parts : TunnelParts) : Bytes :=
  parts.upstreamPrefix ++ parts.upstream.content

/-- One direction of a tunnel: its copier, and whether it has shut its writer down. -/
structure CopyDirection where
  copy : Copy UInt8
  ended : Bool

inductive DirectionStep
  | transfer (t : Transfer)
  | finish
  deriving DecidableEq

namespace CopyDirection

def new (ahead incoming : Bytes) : CopyDirection := { copy := ⟨[], ahead, incoming⟩, ended := false }

/-- One read or write of a direction, or its end after a read that yields nothing. -/
def step (direction : CopyDirection) : DirectionStep → Option CopyDirection
  | .transfer t =>
    if direction.ended then none
    else (direction.copy.transfer relayBufferBytes t).map fun copy => { direction with copy }
  | .finish =>
    if direction.ended = false ∧ direction.copy.Drained then some { direction with ended := true }
    else none

/-- A direction that has ended has copied everything. -/
def EndsDrained (direction : CopyDirection) : Prop :=
  direction.ended = true → direction.copy.Drained

/-- How many steps are left at most. -/
def left (direction : CopyDirection) : ℕ :=
  direction.copy.left + if direction.ended then 0 else 1

variable {direction direction' : CopyDirection} {s : DirectionStep}

/-- What a step of a direction does. -/
theorem step_cases (h : direction.step s = some direction') :
    direction.ended = false ∧
      ((∃ t copy, s = .transfer t ∧ direction.copy.transfer relayBufferBytes t = some copy ∧
          direction' = { direction with copy }) ∨
        (s = .finish ∧ direction.copy.Drained ∧ direction' = { direction with ended := true })) := by
  cases s with
  | transfer t =>
    obtain ⟨hended, h⟩ := Option.ite_none_left_eq_some.mp h
    obtain ⟨copy, hcopy, rfl⟩ := Option.map_eq_some_iff.mp h
    exact ⟨Bool.eq_false_iff.mpr hended, .inl ⟨t, copy, rfl, hcopy, rfl⟩⟩
  | finish =>
    obtain ⟨⟨hended, hdrained⟩, h⟩ := Option.ite_none_right_eq_some.mp h
    exact ⟨hended, .inr ⟨rfl, hdrained, (Option.some.inj h).symm⟩⟩

theorem content_step (h : direction.step s = some direction') :
    direction'.copy.content = direction.copy.content := by
  obtain ⟨-, ⟨t, copy, -, hcopy, rfl⟩ | ⟨-, -, rfl⟩⟩ := step_cases h
  · exact Copy.content_transfer hcopy
  · rfl

theorem endsDrained_step (h : direction.step s = some direction') : direction'.EndsDrained := by
  obtain ⟨hended, ⟨t, copy, -, -, rfl⟩ | ⟨-, hdrained, rfl⟩⟩ := step_cases h
  · intro hended'
    rw [hended] at hended'
    cases hended'
  · exact fun _ => hdrained

theorem left_step (h : direction.step s = some direction') : direction'.left < direction.left := by
  obtain ⟨hended, ⟨t, copy, -, hcopy, rfl⟩ | ⟨-, -, rfl⟩⟩ := step_cases h
  · exact Nat.add_lt_add_right (Copy.left_transfer hcopy) _
  · unfold left
    rw [hended]
    exact Nat.lt_succ_self _

/-- **A direction that has not ended can go on.** -/
theorem exists_step (h : direction.ended = false) : ∃ s, (direction.step s).isSome = true := by
  by_cases hdrained : direction.copy.Drained
  · refine ⟨.finish, ?_⟩
    rw [step, if_pos ⟨h, hdrained⟩]
    rfl
  · obtain ⟨t, ht⟩ := Copy.exists_transfer (by decide : 1 ≤ relayBufferBytes) hdrained
    refine ⟨.transfer t, ?_⟩
    rw [step, h, if_neg Bool.false_ne_true, Option.isSome_map]
    exact ht

end CopyDirection

/-! ## Both directions -/

structure Relay where
  downstreamToUpstream : CopyDirection
  upstreamToDownstream : CopyDirection

inductive Side
  | downstreamToUpstream
  | upstreamToDownstream
  deriving DecidableEq

/-- The relay of a tunnel, `none` when too much was read ahead. -/
def relay (parts : TunnelParts) : Option Relay :=
  if maxPrefixBytes < parts.downstreamPrefix.length ∨ maxPrefixBytes < parts.upstreamPrefix.length then
    none
  else some
    { downstreamToUpstream := .new parts.downstreamPrefix parts.downstream.content
      upstreamToDownstream := .new parts.upstreamPrefix parts.upstream.content }

namespace Relay

def direction (r : Relay) : Side → CopyDirection
  | .downstreamToUpstream => r.downstreamToUpstream
  | .upstreamToDownstream => r.upstreamToDownstream

/-- One step of one of the directions. -/
def step (r : Relay) : Side × DirectionStep → Option Relay
  | (.downstreamToUpstream, s) =>
    (r.downstreamToUpstream.step s).map fun direction => { r with downstreamToUpstream := direction }
  | (.upstreamToDownstream, s) =>
    (r.upstreamToDownstream.step s).map fun direction => { r with upstreamToDownstream := direction }

/-- What both peers are given in the end, and that nothing is cut off. -/
structure Invariant (toUpstream toDownstream : Bytes) (r : Relay) : Prop where
  toUpstream : r.downstreamToUpstream.copy.content = toUpstream
  toDownstream : r.upstreamToDownstream.copy.content = toDownstream
  endsDrained : ∀ side, (r.direction side).EndsDrained

def left (r : Relay) : ℕ := r.downstreamToUpstream.left + r.upstreamToDownstream.left

variable {r r' : Relay} {m : Side × DirectionStep} {toUpstream toDownstream : Bytes}

/-- A step moves one direction and leaves the other as it is. -/
theorem step_cases (h : r.step m = some r') :
    (∃ direction, r.downstreamToUpstream.step m.2 = some direction ∧
        r' = { r with downstreamToUpstream := direction }) ∨
      ∃ direction, r.upstreamToDownstream.step m.2 = some direction ∧
        r' = { r with upstreamToDownstream := direction } := by
  obtain ⟨side, s⟩ := m
  cases side with
  | downstreamToUpstream =>
    obtain ⟨direction, hstep, rfl⟩ := Option.map_eq_some_iff.mp h
    exact .inl ⟨direction, hstep, rfl⟩
  | upstreamToDownstream =>
    obtain ⟨direction, hstep, rfl⟩ := Option.map_eq_some_iff.mp h
    exact .inr ⟨direction, hstep, rfl⟩

theorem invariant_step (h : r.step m = some r') (hr : r.Invariant toUpstream toDownstream) :
    r'.Invariant toUpstream toDownstream := by
  obtain ⟨direction, hstep, rfl⟩ | ⟨direction, hstep, rfl⟩ := step_cases h
  · refine ⟨(CopyDirection.content_step hstep).trans hr.toUpstream, hr.toDownstream, fun side => ?_⟩
    cases side with
    | downstreamToUpstream => exact CopyDirection.endsDrained_step hstep
    | upstreamToDownstream => exact hr.endsDrained .upstreamToDownstream
  · refine ⟨hr.toUpstream, (CopyDirection.content_step hstep).trans hr.toDownstream, fun side => ?_⟩
    cases side with
    | downstreamToUpstream => exact hr.endsDrained .downstreamToUpstream
    | upstreamToDownstream => exact CopyDirection.endsDrained_step hstep

theorem left_step (h : r.step m = some r') : r'.left < r.left := by
  obtain ⟨direction, hstep, rfl⟩ | ⟨direction, hstep, rfl⟩ := step_cases h
  · exact Nat.add_lt_add_right (CopyDirection.left_step hstep) _
  · exact Nat.add_lt_add_left (CopyDirection.left_step hstep) _

/-- **The end of one direction does not stop the other.** -/
theorem exists_step {side : Side} (h : (r.direction side).ended = false) :
    ∃ s, (r.step (side, s)).isSome = true := by
  obtain ⟨s, hs⟩ := CopyDirection.exists_step h
  refine ⟨s, ?_⟩
  cases side <;> exact Option.isSome_map.trans hs

/-- What a relay does in any order of its steps. The client has been given `written` before. -/
structure Lossless (r : Relay) (written toUpstream toDownstream : Bytes) : Prop where
  /-- Each peer is given a beginning of its octets. -/
  order : ∀ {steps t}, run step r steps = some t →
    t.downstreamToUpstream.copy.sent <+: toUpstream ∧
      written ++ t.upstreamToDownstream.copy.sent <+: toDownstream
  /-- A direction whose writer is shut down has delivered all of them. -/
  ended : ∀ {steps t}, run step r steps = some t →
    (t.downstreamToUpstream.ended = true → t.downstreamToUpstream.copy.sent = toUpstream) ∧
      (t.upstreamToDownstream.ended = true →
        written ++ t.upstreamToDownstream.copy.sent = toDownstream)
  /-- A direction whose writer is not shut down can go on, whether the other has ended or not. -/
  goesOn : ∀ {steps t side}, run step r steps = some t → (t.direction side).ended = false →
    ∃ s, (t.step (side, s)).isSome = true
  /-- Only so many steps are possible. -/
  finite : ∃ bound, ∀ {steps t}, run step r steps = some t → steps.length ≤ bound
  /-- When no step is possible, both peers have been given everything. -/
  delivered : ∀ {steps t}, run step r steps = some t → Stuck step t →
    t.downstreamToUpstream.copy.sent = toUpstream ∧
      written ++ t.upstreamToDownstream.copy.sent = toDownstream

end Relay

theorem invariant_relay {parts : TunnelParts} {r : Relay} (h : relay parts = some r) :
    r.Invariant parts.toUpstream parts.toDownstream := by
  obtain ⟨-, h⟩ := Option.ite_none_left_eq_some.mp h
  obtain rfl := Option.some.inj h
  refine ⟨rfl, rfl, fun side hended => ?_⟩
  cases side <;> cases hended

/-- **A tunnel is lossless in any order of its steps.** -/
theorem relay_lossless {parts : TunnelParts} {r : Relay} (h : relay parts = some r) (written : Bytes) :
    r.Lossless written parts.toUpstream (written ++ parts.toDownstream) := by
  have hreached {steps : List (Side × DirectionStep)} {t : Relay}
      (hrun : run Relay.step r steps = some t) := run_invariant Relay.invariant_step hrun (invariant_relay h)
  have hended {steps : List (Side × DirectionStep)} {t : Relay}
      (hrun : run Relay.step r steps = some t) :
      (t.downstreamToUpstream.ended = true →
          t.downstreamToUpstream.copy.sent = parts.toUpstream) ∧
        (t.upstreamToDownstream.ended = true →
          written ++ t.upstreamToDownstream.copy.sent = written ++ parts.toDownstream) := by
    have ht := hreached hrun
    refine ⟨fun hend => ?_, fun hend => ?_⟩
    · rw [← ht.toUpstream]
      exact Copy.sent_of_drained (ht.endsDrained .downstreamToUpstream hend)
    · rw [← ht.toDownstream]
      exact congrArg _ (Copy.sent_of_drained (ht.endsDrained .upstreamToDownstream hend))
  refine ⟨fun hrun => ?_, hended, fun _ hend => Relay.exists_step hend, ⟨r.left, fun hrun => ?_⟩,
    fun {steps t} hrun hstuck => ?_⟩
  · have ht := hreached hrun
    rw [← ht.toUpstream, ← ht.toDownstream]
    exact ⟨Copy.sent_isPrefix _, (List.prefix_append_right_inj _).mpr (Copy.sent_isPrefix _)⟩
  · have hle := length_le_of_run Relay.left_step hrun
    omega
  · have hall (side : Side) : (t.direction side).ended = true := by
      by_contra hend
      obtain ⟨s, hs⟩ := Relay.exists_step (Bool.eq_false_iff.mpr hend)
      rw [hstuck (side, s)] at hs
      cases hs
    exact ⟨(hended hrun).1 (hall .downstreamToUpstream), (hended hrun).2 (hall .upstreamToDownstream)⟩

end Vhrn.Proxy
