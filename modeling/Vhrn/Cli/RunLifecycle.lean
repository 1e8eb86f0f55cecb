import Vhrn.Foundations.Supervision

/-!
# The lifecycle of a run

A run publishes its policy, starts a broker and a proxy, and creates, attaches and awaits the container
of its agent; a termination signal may come at any time and cleans up in its place. Both are scripts
that follow the source step by step: the values a function owns are dropped in the reverse order of
their declaration on every way out of it. `run_resources_orderly` says when a run that is not interrupted
releases its resources in the reverse order of starting them.
-/

namespace Vhrn.Cli

inductive Resource
  | policy
  | broker
  | proxy
  | agent
  /-- The process of the engine's client that the agent is attached to. -/
  | client
  deriving DecidableEq

/-- The steps of a run that may fail. -/
inductive RunStep
  | publish
  | signals
  | runId
  | toolsImage
  | engine
  | route
  | home
  | startBroker
  | startProxy
  | proxyAddress
  | brokerReady
  | createAgent
  | attachAgent
  | pollClient
  deriving DecidableEq

abbrev RunScript := Script RunStep Resource

namespace RunScript

abbrev lock (next : RunScript) : RunScript := .seq .lock next

abbrev unlock (next : RunScript) : RunScript := .seq .unlock next

/-- Leaves a function that owns the given values, innermost first. -/
def leave : List Resource → RunScript
  | [] => .done
  | x :: owned => .seq (.cleanup x) (leave owned)

/-! ## The run -/

/-- Stops the agent under the gate, after the client has been given up. -/
def finishAgent : RunScript :=
  lock <| .seq (.disarm .client) <| .seq (.take .agent) <| unlock <| leave [.proxy, .policy]

def waitAgent : RunScript := .seq (.await .pollClient .client) finishAgent

def startAgent : RunScript :=
  lock <| .check
    (.start .attachAgent .client (.seq (.install .client) <| unlock waitAgent)
      (.seq (.take .agent) <| unlock finishAgent))
    (.seq (.take .agent) <| unlock finishAgent)

def createAgent : RunScript :=
  lock <| .check
    (.start .createAgent .agent
      (.seq (.install .agent) <| .check (unlock startAgent) (.seq (.take .agent) <| unlock finishAgent))
      (unlock finishAgent))
    (unlock finishAgent)

/-- Waits for the broker, which is dropped at the end of the block. -/
def waitReady : RunScript :=
  .attempt .brokerReady (.seq (.cleanup .broker) createAgent)
    (.seq (.cleanup .broker) <| leave [.proxy, .policy])

def startProxy : RunScript :=
  lock <| .check
    (.start .startProxy .proxy
      (.seq (.install .proxy) <| .attempt .proxyAddress (unlock waitReady)
        (.seq (.cleanup .proxy) <| unlock <| leave [.broker, .policy]))
      (unlock <| leave [.broker, .policy]))
    (unlock <| leave [.broker, .policy])

def startBroker : RunScript :=
  lock <| .check
    (.attempt .home
      (.start .startBroker .broker (.seq (.install .broker) <| unlock startProxy)
        (unlock <| leave [.policy]))
      (unlock <| leave [.policy]))
    (unlock <| leave [.policy])

/-- The steps before the broker is started. -/
def prepare : RunScript :=
  .attempt .runId
    (.attempt .toolsImage
      (.attempt .engine (.attempt .route startBroker (leave [.policy])) (leave [.policy]))
      (leave [.policy]))
    (leave [.policy])

def startContainer : RunScript :=
  .start .publish .policy (.attempt .signals (.seq .arm prepare) (leave [.policy])) .done

/-- What the signal thread does at a termination signal. -/
def terminate : RunScript :=
  .seq .request <| lock <| .seq (.take .client) <| .seq (.take .agent) <| .seq (.take .proxy) <|
    .seq (.take .broker) <| .seq (.cleanup .policy) <| unlock .done

end RunScript

abbrev RunState := Supervision RunStep Resource

/-- A run before its first step. -/
def newRun : RunState := .new RunScript.startContainer RunScript.terminate

/-! ## Runs that are not interrupted -/

/-- The resources that are started and released, in their order; the client process is no resource. -/
def startedIn (trace : List (Event Resource)) : List Resource :=
  trace.filterMap fun
    | .started .client => none
    | .started x => some x
    | _ => none

def releasedIn (trace : List (Event Resource)) : List Resource :=
  trace.filterMap fun
    | .released x => some x
    | _ => none

/-- What is started is released once, in the reverse order, and nothing is released while the agent
runs. -/
structure Orderly (trace : List (Event Resource)) : Prop where
  released : releasedIn trace = (startedIn trace).reverse
  protects : ∀ before after, trace = before ++ after → .started .agent ∈ before →
    .released .agent ∉ before → ∀ x ∈ [Resource.broker, .proxy, .policy], .begun x ∉ before

/-- The steps of a run up to the one that waits for the broker. -/
def startupSteps : List RunStep :=
  [.publish, .signals, .runId, .toolsImage, .engine, .route, .home, .startBroker, .startProxy,
    .proxyAddress]

/-- The events of a run that is not interrupted. -/
def runEvents (outcome : RunStep → Bool) : List (Event Resource) :=
  RunScript.startContainer.events outcome false (fun _ => false) fun _ => .idle

variable {outcome : RunStep → Bool}

theorem trace_of_run {ms : List (Party × Bool)} {t : RunState}
    (hfollows : RunWhere Supervision.step (Supervision.Follows outcome) newRun ms)
    (h : run Supervision.step newRun ms = some t) (hdone : t.script .runner = .done) :
    t.trace = runEvents outcome :=
  Supervision.trace_of_run_alone hfollows h hdone

/-- The events of dropping some values, one after the other. -/
def dropped (xs : List Resource) : List (Event Resource) := xs.flatMap fun x => [.begun x, .released x]

/-- The events of an agent from its creation to its end. -/
def agentEvents (outcome : RunStep → Bool) : List (Event Resource) :=
  if outcome .createAgent then
    .started .agent ::
      (if outcome .attachAgent then
        .started .client :: (if outcome .pollClient then [.exited .client] else [])
      else []) ++ dropped [.agent]
  else []

/-- The events once the proxy is started. -/
def proxyEvents (outcome : RunStep → Bool) : List (Event Resource) :=
  if outcome .proxyAddress then
    dropped [.broker] ++ (if outcome .brokerReady then agentEvents outcome else []) ++
      dropped [.proxy, .policy]
  else dropped [.proxy, .broker, .policy]

/-- The steps after the policy is published and before the proxy is started. -/
def preparation (outcome : RunStep → Bool) : Bool :=
  outcome .signals && outcome .runId && outcome .toolsImage && outcome .engine && outcome .route &&
    outcome .home && outcome .startBroker

theorem events_createAgent (outcome : RunStep → Bool) (slot : Resource → Bool)
    (progress : Resource → Progress) (hagent : progress .agent = .idle) (hclient : progress .client = .idle)
    (hproxy : progress .proxy = .idle) (hpolicy : progress .policy = .idle) (hslot : slot .agent = false) :
    RunScript.createAgent.events outcome false slot progress =
      agentEvents outcome ++ dropped [.proxy, .policy] := by
  cases hcreate : outcome .createAgent
  · simp [RunScript.createAgent, RunScript.finishAgent, RunScript.leave, agentEvents, Script.events,
      hcreate, hslot, cleaned, dropped, hproxy, hpolicy]
  · cases hattach : outcome .attachAgent
    · simp [RunScript.createAgent, RunScript.startAgent, RunScript.finishAgent, RunScript.leave,
        agentEvents, Script.events, hcreate, hattach, cleaned, dropped, hagent, hproxy, hpolicy]
    · cases hpoll : outcome .pollClient <;>
        simp [RunScript.createAgent, RunScript.startAgent, RunScript.waitAgent, RunScript.finishAgent,
          RunScript.leave, agentEvents, Script.events, hcreate, hattach, hpoll, cleaned, dropped, hagent,
          hclient, hproxy, hpolicy]

/-- **What a run does that is not interrupted.** -/
theorem runEvents_eq (outcome : RunStep → Bool) : runEvents outcome =
    if outcome .publish then
      .started .policy ::
        if preparation outcome then
          .started .broker ::
            if outcome .startProxy then .started .proxy :: proxyEvents outcome
            else dropped [.broker, .policy]
        else dropped [.policy]
    else [] := by
  unfold runEvents
  cases hpublish : outcome .publish
  · simp [RunScript.startContainer, Script.events, hpublish]
  cases hprepared : preparation outcome
  · simp only [preparation, Bool.and_eq_false_iff] at hprepared
    simp only [RunScript.startContainer, RunScript.prepare, RunScript.startBroker, RunScript.leave,
      Script.events, hpublish, cleaned, dropped]
    grind -ring -linarith
  · simp only [preparation, Bool.and_eq_true] at hprepared
    cases hproxy : outcome .startProxy
    · simp [RunScript.startContainer, RunScript.prepare, RunScript.startBroker, RunScript.startProxy,
        RunScript.leave, Script.events, hpublish, hprepared, hproxy, cleaned, dropped]
    · cases haddress : outcome .proxyAddress <;> cases hready : outcome .brokerReady <;>
        simp [RunScript.startContainer, RunScript.prepare, RunScript.startBroker, RunScript.startProxy,
          RunScript.waitReady, RunScript.leave, events_createAgent, proxyEvents, Script.events, hpublish,
          hprepared, hproxy, haddress, hready, cleaned, dropped]

/-! ## The order of release -/

/-- A run without an agent is orderly when it releases in the reverse order. -/
theorem orderly_of_no_agent {trace : List (Event Resource)}
    (hreleased : releasedIn trace = (startedIn trace).reverse) (hagent : .started .agent ∉ trace) :
    Orderly trace where
  released := hreleased
  protects _ after h hstarted := absurd (h ▸ List.mem_append_left after hstarted) hagent

theorem startup_failed (outcome : RunStep → Bool) : (∃ s ∈ startupSteps, outcome s = false) ↔
    (outcome .publish && preparation outcome && outcome .startProxy && outcome .proxyAddress) =
      false := by
  simp [startupSteps, preparation]
  grind -ring -linarith

theorem orderly_runEvents (outcome : RunStep → Bool) :
    Orderly (runEvents outcome) ↔ ∃ s ∈ startupSteps, outcome s = false := by
  rw [startup_failed, runEvents_eq]
  cases hpublish : outcome .publish
  · simp only [Bool.false_and, iff_true]
    exact orderly_of_no_agent rfl (by simp)
  cases hprepared : preparation outcome
  · simp only [Bool.true_and, Bool.false_and, iff_true]
    exact orderly_of_no_agent rfl (by simp [dropped])
  cases hproxy : outcome .startProxy
  · simp only [Bool.true_and, Bool.false_and, iff_true]
    exact orderly_of_no_agent rfl (by simp [dropped])
  cases haddress : outcome .proxyAddress
  · simp only [Bool.true_and, iff_true]
    unfold proxyEvents
    rw [haddress]
    exact orderly_of_no_agent rfl (by simp [dropped])
  · -- the broker is dropped before the proxy, whatever comes then
    refine iff_of_false (fun h => ?_) (by simp)
    have hreleased := h.released
    cases hready : outcome .brokerReady <;> cases hcreate : outcome .createAgent <;>
      cases hattach : outcome .attachAgent <;> cases hpoll : outcome .pollClient <;>
        simp [proxyEvents, agentEvents, dropped, releasedIn, startedIn, haddress, hready, hcreate, hattach,
          hpoll] at hreleased

/-- **A run that is not interrupted releases its resources in order exactly when it does not come to
wait for the broker.** -/
theorem run_resources_orderly {ms : List (Party × Bool)} {t : RunState}
    (hfollows : RunWhere Supervision.step (Supervision.Follows outcome) newRun ms)
    (h : run Supervision.step newRun ms = some t) (hdone : t.script .runner = .done) :
    Orderly t.trace ↔ ∃ s ∈ startupSteps, outcome s = false := by
  rw [trace_of_run hfollows h hdone]
  exact orderly_runEvents outcome

/-- A run whose proxy cannot be started. -/
theorem run_resources_orderly_no_proxy : ∃ t : RunState,
    run Supervision.step newRun
      (List.replicate 15 (.runner, true) ++ (.runner, false) :: List.replicate 5 (.runner, true)) =
        some t ∧
    (Orderly t.trace ↔ ∃ s ∈ startupSteps, (s != .startProxy) = false) := by
  have hfollows : RunWhere Supervision.step (Supervision.Follows (· != .startProxy)) newRun
      (List.replicate 15 (.runner, true) ++ (.runner, false) :: List.replicate 5 (.runner, true)) := by
    decide +kernel
  exact ⟨_, rfl, run_resources_orderly hfollows rfl rfl⟩

/-- When every step succeeds, the broker is stopped before the agent is created. -/
theorem broker_stopped_before_agent : ∃ t : RunState,
    run Supervision.step newRun (List.replicate 44 (.runner, true)) = some t ∧
    RunWhere Supervision.step (Supervision.Follows fun _ => true) newRun
      (List.replicate 44 (.runner, true)) ∧
    t.script .runner = .done ∧ ¬ Orderly t.trace ∧
    ∃ before after, t.trace = before ++ .started .agent :: after ∧ .released .broker ∈ before := by
  refine ⟨_, rfl, by decide +kernel, rfl, fun h => ?_, ?_⟩
  · exact absurd h.released (by decide +kernel)
  · exact ⟨[.started .policy, .started .broker, .started .proxy, .begun .broker, .released .broker], _,
      rfl, by decide⟩

end Vhrn.Cli
