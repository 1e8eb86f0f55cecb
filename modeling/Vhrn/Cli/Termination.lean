import Vhrn.Cli.RunLifecycle
import Vhrn.Foundations.Guards

/-!
# Termination of a run

The signal thread of a run cleans up in place of the run path. `termination_race_free` is what holds of
every interleaving of the two. Nothing new is started after the request, no agent is left and no cleanup
runs twice, whatever the parties do. No client is left when polling the client process does not fail. The
policy is retired after the proxy's stop when neither party comes to the stop while the other is in it, and
the broker is stopped after it when the run path, too, does not come to the end of the block that waits for
the broker while the proxy is up.
-/

namespace Vhrn.Cli

/-- The agent is created, registered and stopped under the gate. -/
def agentGuard : Guard RunStep Resource where
  resource := .agent
  confined := true
  awaitable := false
  dependents := []
  early := []
  resource_notMem := List.not_mem_nil

/-- The client ends by itself when the agent does. -/
def clientGuard : Guard RunStep Resource where
  resource := .client
  confined := true
  awaitable := true
  dependents := []
  early := []
  resource_notMem := List.not_mem_nil

/-- The run path stops the proxy at the end of its scope, outside the gate, and then retires the policy. -/
def policyGuard : Guard RunStep Resource where
  resource := .proxy
  confined := false
  awaitable := false
  dependents := [.policy]
  early := []
  resource_notMem := by decide

/-- The broker is dropped where the block ends that waits for it, or at the end of its scope. -/
def brokerGuard : Guard RunStep Resource where
  resource := .proxy
  confined := false
  awaitable := false
  dependents := [.broker, .policy]
  early := [RunScript.createAgent, RunScript.leave [.proxy, .policy]]
  resource_notMem := by decide

/-- Nothing but what the run path had passed the check of is started from here on, and that under the
gate. -/
def Quiet (t : RunState) : Prop :=
  ∀ moves u, run Supervision.step t moves = some u → u.starts = t.starts ∨
    ∃ x ∈ (t.script .runner).unchecked, u.starts = t.starts ++ [x] ∧ t.gate = some .runner

/-- The dependent is released after the stop of the proxy. -/
def ProxyFirst (t : RunState) (dependent : Resource) : Prop :=
  .begun dependent ∈ t.trace → .started .proxy ∈ t.trace → t.progress .proxy = .completed

/-- No client is left when the signal thread is done. -/
def ClientOver (t : RunState) : Prop :=
  t.script .terminator = .done → .started .client ∈ t.trace →
    .exited .client ∈ t.trace ∨ t.progress .client = .completed

/-- What holds of termination without a condition. -/
structure Terminates (t : RunState) : Prop where
  quiet : t.requested → Quiet t
  agent : t.script .terminator = .done → .started .agent ∈ t.trace → t.progress .agent = .completed
  once : ∀ x, t.trace.count (.begun x) ≤ 1

/-- What termination promises of a state of a run. -/
structure RaceFree (t : RunState) : Prop extends Terminates t where
  client : ClientOver t
  broker : ProxyFirst t .broker
  policy : ProxyFirst t .policy

variable {moves : List (Party × Bool)} {t : RunState}

theorem kept_agent (h : run Supervision.step newRun moves = some t) :
    ∃ m u, t.Kept agentGuard m u :=
  run_invariant (P := fun s : RunState => ∃ m u, s.Kept agentGuard m u)
    (fun h hs => Supervision.kept_step hs (Supervision.respected_of_confined rfl rfl rfl _ _) h) h
    (Supervision.kept_new (by decide +kernel) (by decide +kernel))

/-- A guard that the two scripts keep to holds of every run whose steps respect it. -/
theorem kept_of_respected {g : Guard RunStep Resource}
    (hrunner : RunScript.startContainer.guarded g ⟨false, false, false, .fresh⟩)
    (hterminator : RunScript.terminate.tearsDown g ⟨false, false, .fresh⟩)
    (hrespected : RunWhere Supervision.step g.Respected newRun moves)
    (h : run Supervision.step newRun moves = some t) : ∃ m u, t.Kept g m u :=
  run_invariant_where (P := fun s : RunState => ∃ m u, s.Kept g m u)
    (fun hrespected h hs => Supervision.kept_step hs hrespected h) hrespected h
    (Supervision.kept_new hrunner hterminator)

theorem terminates_of_run (h : run Supervision.step newRun moves = some t) : Terminates t where
  quiet hrequested later _ hlater :=
    Supervision.started_after_request (kept_agent h) hrequested
      (runWhere_of_forall (fun _ _ => Supervision.respected_of_confined rfl rfl rfl _ _) t later) hlater
  agent hdone :=
    Supervision.completed_of_over (kept_agent h) rfl (Supervision.over_of_done (kept_agent h) hdone)
  once := Supervision.count_begun_le h

/-- A dependent of the proxy that has begun to be released comes after it. -/
theorem proxyFirst_of_kept {g : Guard RunStep Resource} {x : Resource}
    (hkept : ∃ m u, t.Kept g m u) (hawaitable : g.awaitable = false) (hproxy : g.resource = .proxy)
    (hx : x ∈ g.dependents) : ProxyFirst t x := by
  intro hbegun hstarted
  rw [← hproxy] at hstarted ⊢
  exact Supervision.completed_of_over hkept hawaitable (Supervision.over_of_begun hkept hx hbegun) hstarted

/-- **A run and its termination do not race, as far as each part goes**: without a condition nothing new is
started, no agent is left and no cleanup runs twice; the client, the policy and the broker come with the
conditions of their guards. -/
theorem termination_race_free (h : run Supervision.step newRun moves = some t) :
    Terminates t ∧
    (RunWhere Supervision.step clientGuard.Respected newRun moves → ClientOver t) ∧
    (RunWhere Supervision.step policyGuard.Respected newRun moves → ProxyFirst t .policy) ∧
    (RunWhere Supervision.step brokerGuard.Respected newRun moves → ProxyFirst t .broker) := by
  refine ⟨terminates_of_run h, fun hclient hdone => ?_, fun hpolicy => ?_, fun hbroker => ?_⟩
  · exact Supervision.over_of_done
      (kept_of_respected (by decide +kernel) (by decide +kernel) hclient h) hdone
  · exact proxyFirst_of_kept (kept_of_respected (by decide +kernel) (by decide +kernel) hpolicy h) rfl rfl
      (by decide)
  · exact proxyFirst_of_kept (kept_of_respected (by decide +kernel) (by decide +kernel) hbroker h) rfl rfl
      (by decide)

/-- A run that is terminated while the client of its agent runs. -/
def interruptedRun : List (Party × Bool) :=
  List.replicate 33 (.runner, true) ++ List.replicate 16 (.terminator, true) ++
    List.replicate 7 (.runner, false)

/-- A run that is terminated while it waits for the broker. -/
def startupRun : List (Party × Bool) :=
  List.replicate 19 (.runner, true) ++ List.replicate 13 (.terminator, true) ++
    List.replicate 4 (.runner, false)

theorem termination_race_free_example :
    (∃ t : RunState, run Supervision.step newRun interruptedRun = some t ∧
      (∀ p, t.script p = .done) ∧ .started .agent ∈ t.trace ∧ .started .client ∈ t.trace ∧
        Terminates t ∧ ClientOver t ∧ ProxyFirst t .policy) ∧
    ∃ t : RunState, run Supervision.step newRun startupRun = some t ∧
      .begun .broker ∈ t.trace ∧ ProxyFirst t .broker := by
  have hclient : RunWhere Supervision.step clientGuard.Respected newRun interruptedRun := by
    decide +kernel
  have hpolicy : RunWhere Supervision.step policyGuard.Respected newRun interruptedRun := by
    decide +kernel
  have hbroker : RunWhere Supervision.step brokerGuard.Respected newRun startupRun := by
    decide +kernel
  constructor
  · obtain ⟨t, hrun⟩ : ∃ t, run Supervision.step newRun interruptedRun = some t := ⟨_, rfl⟩
    obtain ⟨hterminates, hover, hfirst, -⟩ := termination_race_free hrun
    obtain rfl := Option.some.inj hrun
    exact ⟨_, rfl, fun p => by cases p <;> rfl, by decide, by decide, hterminates, hover hclient,
      hfirst hpolicy⟩
  · obtain ⟨t, hrun⟩ : ∃ t, run Supervision.step newRun startupRun = some t := ⟨_, rfl⟩
    have hfirst := (termination_race_free hrun).2.2.2 hbroker
    obtain rfl := Option.some.inj hrun
    exact ⟨_, rfl, by decide, hfirst⟩

/-- The run path drops the proxy's guard while the signal thread is in the proxy's stop, does not wait for
it and retires the policy. -/
theorem policy_retired_while_proxy_stops : ∃ t : RunState,
    run Supervision.step newRun (List.replicate 19 (.runner, true) ++
      List.replicate 3 (.runner, false) ++ List.replicate 6 (.terminator, true) ++
      List.replicate 2 (.runner, true)) = some t ∧
    .begun .policy ∈ t.trace ∧ t.progress .proxy = .running .terminator ∧ ¬ RaceFree t := by
  refine ⟨_, rfl, by decide, rfl, fun h => ?_⟩
  exact absurd (h.policy (by decide) (by decide)) (by decide)

end Vhrn.Cli
