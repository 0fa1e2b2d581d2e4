import Mathlib.Data.String.Basic
import Modbit.Agent.Policy
import Modbit.Lib.OrdMap

/-!
# The one-agent loop

A run asks the model, reads its answer, and calls the tools it asks for, turn after turn, until it
asks for none or the turns are used up.  Every call goes through the kernel; a refused call with an
effect is put to the approval gate, if there is one.

What a run reaches outside itself (model, handlers, control signals, gate) is a function on a world
`W`, which any of them may change, and from which the live grants are read.  What is sent to the
model, and what observers are told, is left out: the answers are arbitrary.

The log is what the run did with its calls: each was checked, and then perhaps approved and
executed, in the world of that moment.  `run_calls`: it is made of what single calls leave
(`callTool_events`).
-/

namespace Modbit

open Lib List

namespace Agent

open Policy

variable {W : Type}

/-! ### Tools -/

structure RegisteredTool (W : Type) where
  version : String
  effectClass : EffectClass
  handler : W → Json → W × Except String Json

inductive ToolError where
  | unknownTool (name : String)
  | policyDenied (reason : String)
  | handler (message : String)
  deriving DecidableEq

def ToolError.display : ToolError → String
  | .unknownTool name => "unknown tool " ++ Text.debugStr name
  | .policyDenied reason => "policy denied: " ++ reason
  | .handler message => "tool handler error: " ++ message

structure ToolExecution where
  tool : String
  argumentsHash : String
  result : Json
  effectClass : EffectClass

structure ToolRegistry (W : Type) where
  tools : OrdMap String (RegisteredTool W)

namespace ToolRegistry

def list (registry : ToolRegistry W) : List (String × String × EffectClass) :=
  registry.tools.entries.map (fun t => (t.1, t.2.version, t.2.effectClass))

def execute (registry : ToolRegistry W) (w : W) (name : String) (arguments : Json)
    (decision : PolicyDecision) : W × Except ToolError ToolExecution :=
  match decision with
  | .deny _ => (w, .error (.policyDenied ("kernel decision: " ++ decision.display)))
  | .allow =>
    match registry.tools.find? name with
    | none => (w, .error (.unknownTool name))
    | some tool =>
      match tool.handler w arguments with
      | (w, .error message) => (w, .error (.handler message))
      | (w, .ok result) =>
        (w, .ok ⟨name, Sha256.hex (Utf8.encode arguments.render.toList), result, tool.effectClass⟩)

end ToolRegistry

/-! ### The model's answer -/

structure TokenUsage where
  inputTokens : UInt64
  outputTokens : UInt64

inductive StreamEvent where
  | delta (text : String)
  | toolRequest (callId name arguments : String)
  | toolCallDelta (callId : Option String) (index : Option UInt32) (name : Option String)
      (argumentsDelta : String)
  | usage (usage : TokenUsage)
  | completed (stopReason : Option String)

structure PartialToolCall where
  callId : Option String
  index : Option UInt32
  name : String
  arguments : String

structure ToolCallAssembler where
  partials : List PartialToolCall
  emitted : List String

namespace ToolCallAssembler

def new : ToolCallAssembler := ⟨[], []⟩

/-- A fragment belongs to the call with its id, or without an id to the one with its index. -/
def isFor (callId : Option String) (index : Option UInt32) (p : PartialToolCall) : Bool :=
  match callId with
  | some id => p.callId = some id
  | none => index.isSome && p.index = index

def extend (callId : Option String) (index : Option UInt32) (name : Option String)
    (argumentsDelta : String) (p : PartialToolCall) : PartialToolCall :=
  ⟨p.callId.or callId, p.index.or index, name.getD p.name, p.arguments ++ argumentsDelta⟩

/-- The calls that are complete, with the ids that were emitted. -/
def flush : List PartialToolCall → List String → List StreamEvent × List String
  | [], emitted => ([], emitted)
  | p :: rest, emitted =>
    match p.callId with
    | none => flush rest emitted
    | some id =>
      if p.name = "" ∨ id ∈ emitted then flush rest emitted
      else
        let more := flush rest (emitted ++ [id])
        (.toolRequest id p.name p.arguments :: more.1, more.2)

def feed (a : ToolCallAssembler) : StreamEvent → ToolCallAssembler × List StreamEvent
  | .toolCallDelta callId index name argumentsDelta =>
    let change := extend callId index name argumentsDelta
    if a.partials.any (isFor callId index) then
      ({ a with partials := a.partials.modify (a.partials.findIdx (isFor callId index)) change }, [])
    else ({ a with partials := a.partials ++ [change ⟨callId, index, "", ""⟩] }, [])
  | .completed stopReason =>
    let out := flush a.partials a.emitted
    (⟨[], out.2⟩, out.1 ++ [.completed stopReason])
  | other => (a, [other])

def feedAll (a : ToolCallAssembler) : List StreamEvent → List StreamEvent
  | [] => []
  | event :: rest => (a.feed event).2 ++ (a.feed event).1.feedAll rest

end ToolCallAssembler

structure ToolCallData where
  callId : String
  name : String
  arguments : String

structure ToolOutcome where
  callId : String
  name : String
  result : Option Json
  refusal : Option String

def invalidToolPayload : String := "invalid tool payload: arguments must be a JSON object"

/-! ### Turns -/

inductive TurnState where
  | prepared
  | streaming
  | executing
  | verifying
  | completed
  | failed
  | interrupted
  deriving DecidableEq

def canTransition : TurnState → TurnState → Bool
  | .prepared, .streaming => true
  | .streaming, .executing => true
  | .executing, .streaming => true
  | .executing, .executing => true
  | .executing, .verifying => true
  | .verifying, .completed => true
  | .verifying, .executing => true
  | _, .interrupted => true
  | _, .failed => true
  | _, _ => false

inductive AgentError where
  | transport (message : String)
  | illegalTransition (source target : TurnState)
  deriving DecidableEq

def transition (state target : TurnState) : Except AgentError TurnState :=
  if canTransition state target then .ok target else .error (.illegalTransition state target)

structure AgentRunResult where
  finalState : TurnState
  turnsUsed : Nat
  assembledText : String
  toolOutcomes : List ToolOutcome
  stopReason : Option String
  cancelled : Bool
  paused : Bool
  usage : Option TokenUsage

/-- What was done with a call, and the world at that moment. -/
inductive Event (W : Type) where
  | checked (w : W) (request : ToolCallRequest)
  | approved (w : W) (request : ToolCallRequest)
  | executed (w : W) (request : ToolCallRequest)

structure Progress (W : Type) where
  world : W
  state : TurnState
  turnsUsed : Nat
  assembled : String
  toolOutcomes : List ToolOutcome
  stopReason : Option String
  lastUsage : Option TokenUsage
  log : List (Event W)

def Progress.result (s : Progress W) (stopReason : Option String) (cancelled paused : Bool) :
    AgentRunResult :=
  ⟨s.state, s.turnsUsed, s.assembled, s.toolOutcomes, stopReason, cancelled, paused, s.lastUsage⟩

structure OneAgentRuntime (W : Type) where
  /-- `serde_json::from_str`. -/
  parse : String → Option Json
  transport : W → W × Except String (List StreamEvent)
  registry : ToolRegistry W
  kernel : PolicyKernel
  grants : W → List CapabilityGrant
  maxTurns : Nat
  /-- Whether the run is stopped, and whether it is paused. -/
  control : Option (W → W × Bool × Bool)
  /-- The gate is asked with the intent, the tool and the arguments. -/
  approvalGate : Option (W → String → String → Json → W × Option String)

namespace OneAgentRuntime

variable (rt : OneAgentRuntime W)

/-- The class of a tool; a name that is not registered has no effect. -/
def request (name : String) (arguments : Json) : ToolCallRequest :=
  ⟨name, ((rt.registry.list.find? (fun t => t.1 = name)).map (fun t => t.2.2)).getD .readOnly,
    arguments⟩

/-- The decision on a call: the kernel's, or the gate's on a refused call with an effect. -/
def decision (w : W) (request : ToolCallRequest) : W × PolicyDecision × List (Event W) :=
  let decision := rt.kernel.check request (rt.grants w)
  match rt.approvalGate, decision with
  | some gate, .deny _ =>
    if request.effectClass ≠ .readOnly then
      match gate w (intentHash request) request.tool request.arguments with
      | (w', answer) =>
        if answer = some "approved" then
          (w', .allow, [.checked w request, .approved w' request])
        else (w', decision, [.checked w request])
    else (w, decision, [.checked w request])
  | _, _ => (w, decision, [.checked w request])

def callTool (w : W) (call : ToolCallData) (arguments : Json) : W × ToolOutcome × List (Event W) :=
  let request := rt.request call.name arguments
  match rt.decision w request with
  | (w', .deny reason, events) =>
    (w', ⟨call.callId, call.name, none, some ("policy denied: " ++ reason)⟩, events)
  | (w', .allow, events) =>
    match rt.registry.execute w' call.name arguments .allow with
    | (w'', .ok execution) =>
      (w'', ⟨call.callId, call.name, some execution.result, none⟩, events ++ [.executed w' request])
    | (w'', .error e) =>
      (w'', ⟨call.callId, call.name, none, some ("tool error: " ++ e.display)⟩,
        events ++ [.executed w' request])

/-- The issued calls in order, those whose arguments were parsed.  Of two calls with one id the
arguments of the later one are taken. -/
def callAll (parsed : List (String × Json)) : List ToolCallData → Progress W → Progress W
  | [], s => s
  | call :: rest, s =>
    match parsed.reverse.lookup call.callId with
    | none => callAll parsed rest s
    | some arguments =>
      match rt.callTool s.world call arguments with
      | (w, outcome, events) =>
        callAll parsed rest { s with world := w, toolOutcomes := s.toolOutcomes ++ [outcome],
                                     log := s.log ++ events }

/-- The calls read from an answer, and the arguments of those that are objects. -/
structure Reading where
  issuedCalls : List ToolCallData
  requestedTools : List (String × Json)

def readEvents : List StreamEvent → Progress W → Reading → Progress W × Except AgentError Reading
  | [], s, r => (s, .ok r)
  | .delta text :: rest, s, r => readEvents rest { s with assembled := s.assembled ++ text } r
  | .usage usage :: rest, s, r => readEvents rest { s with lastUsage := some usage } r
  | .completed reason :: rest, s, r => readEvents rest { s with stopReason := reason } r
  | .toolCallDelta _ _ _ _ :: _, s, _ =>
    (s, .error (.transport "internal: ToolCallDelta escaped the assembler"))
  | .toolRequest callId name arguments :: rest, s, r =>
    let issued := r.issuedCalls ++ [⟨callId, name, arguments⟩]
    match rt.parse arguments with
    | some (.obj fields) =>
      readEvents rest s ⟨issued, r.requestedTools ++ [(callId, .obj fields)]⟩
    | _ =>
      readEvents rest { s with toolOutcomes := s.toolOutcomes
                                 ++ [⟨callId, name, none, some invalidToolPayload⟩] }
        ⟨issued, r.requestedTools⟩

def complete (s : Progress W) : Progress W × Except AgentError AgentRunResult :=
  match transition s.state .executing with
  | .error e => (s, .error e)
  | .ok state =>
    match transition state .verifying with
    | .error e => ({ s with state := state }, .error e)
    | .ok state =>
      match transition state .completed with
      | .error e => ({ s with state := state }, .error e)
      | .ok state =>
        let s := { s with state := state }
        (s, .ok (s.result s.stopReason false false))

def answerCalls (r : Reading) (s : Progress W) :
    Progress W × Option (Except AgentError AgentRunResult) :=
  match transition s.state .executing with
  | .error e => (s, some (.error e))
  | .ok state =>
    let s := rt.callAll r.requestedTools r.issuedCalls { s with state := state }
    match transition s.state .streaming with
    | .error e => (s, some (.error e))
    | .ok state => ({ s with state := state }, none)

def invoke (s : Progress W) : Progress W × Option (Except AgentError AgentRunResult) :=
  match rt.transport s.world with
  | (w, .error message) => ({ s with world := w }, some (.error (.transport message)))
  | (w, .ok events) =>
    match rt.readEvents (ToolCallAssembler.new.feedAll events) { s with world := w } ⟨[], []⟩ with
    | (s, .error e) => (s, some (.error e))
    | (s, .ok r) =>
      if r.issuedCalls.isEmpty then
        match complete s with
        | (s, result) => (s, some result)
      else rt.answerCalls r s

/-- One turn: what it returns, if the run ends with it. -/
def turn (s : Progress W) : Progress W × Option (Except AgentError AgentRunResult) :=
  let s := { s with turnsUsed := s.turnsUsed + 1 }
  match rt.control with
  | none => rt.invoke s
  | some control =>
    match control s.world with
    | (w, cancelled, paused) =>
      let s := { s with world := w }
      if cancelled then (s, some (.ok (s.result (some "cancelled") true false)))
      else if paused then (s, some (.ok (s.result (some "paused") false true)))
      else rt.invoke s

def turns : Nat → Progress W → Progress W × Except AgentError AgentRunResult
  | 0, s =>
    match transition s.state .failed with
    | .error e => (s, .error e)
    | .ok state =>
      let s := { s with state := state }
      (s, .ok (s.result (some "max_turns_exceeded") false false))
  | n + 1, s =>
    match rt.turn s with
    | (s, some result) => (s, result)
    | (s, none) => turns n s

def start (w : W) : Progress W := ⟨w, .prepared, 0, "", [], none, none, []⟩

def run (w : W) : Progress W × Except AgentError AgentRunResult :=
  match transition TurnState.prepared .streaming with
  | .error e => (start w, .error e)
  | .ok state => rt.turns rt.maxTurns { start w with state := state }

/-! ### One call -/

variable {rt} {w : W} {r : ToolCallRequest}

/-- **What one call leaves in the log.**  It is executed at once, where the kernel allows it; or
after the gate approved it; or not at all. -/
inductive Called (rt : OneAgentRuntime W) (w : W) (r : ToolCallRequest) : List (Event W) → Prop
  | allowed (h : rt.kernel.check r (rt.grants w) = .allow) :
      Called rt w r [.checked w r, .executed w r]
  | approved (gate : W → String → String → Json → W × Option String)
      (hgate : rt.approvalGate = some gate) (h : rt.kernel.check r (rt.grants w) ≠ .allow)
      (hclass : r.effectClass ≠ .readOnly)
      (hanswer : (gate w (intentHash r) r.tool r.arguments).2 = some "approved") :
      Called rt w r [.checked w r, .approved (gate w (intentHash r) r.tool r.arguments).1 r,
        .executed (gate w (intentHash r) r.tool r.arguments).1 r]
  | refused (h : rt.kernel.check r (rt.grants w) ≠ .allow) : Called rt w r [.checked w r]

theorem decision_called (rt : OneAgentRuntime W) (w : W) (r : ToolCallRequest) :
    ((rt.decision w r).2.1 = .allow →
      Called rt w r ((rt.decision w r).2.2 ++ [.executed (rt.decision w r).1 r])) ∧
    ((rt.decision w r).2.1 ≠ .allow → Called rt w r (rt.decision w r).2.2) := by
  rw [decision]
  cases hcheck : rt.kernel.check r (rt.grants w) with
  | allow =>
    cases rt.approvalGate with
    | none => exact ⟨fun _ => .allowed hcheck, fun h => absurd rfl h⟩
    | some gate => exact ⟨fun _ => .allowed hcheck, fun h => absurd rfl h⟩
  | deny reason =>
    have hdeny : rt.kernel.check r (rt.grants w) ≠ .allow := by
      rw [hcheck]
      exact fun h => (nomatch h)
    cases hgate : rt.approvalGate with
    | none => exact ⟨fun h => (nomatch h), fun _ => .refused hdeny⟩
    | some gate =>
      dsimp only
      split_ifs with hclass hanswer
      · exact ⟨fun _ => .approved gate hgate hdeny hclass hanswer, fun h => absurd rfl h⟩
      · exact ⟨fun h => (nomatch h), fun _ => .refused hdeny⟩
      · exact ⟨fun h => (nomatch h), fun _ => .refused hdeny⟩

theorem callTool_events (rt : OneAgentRuntime W) (w : W) (call : ToolCallData) (arguments : Json) :
    Called rt w (rt.request call.name arguments) (rt.callTool w call arguments).2.2 := by
  obtain ⟨hallow, hdeny⟩ := decision_called rt w (rt.request call.name arguments)
  rw [callTool]
  cases hd : rt.decision w (rt.request call.name arguments) with
  | mk w' rest =>
    obtain ⟨d, events⟩ := rest
    rw [hd] at hallow hdeny
    cases d with
    | deny reason => exact hdeny (fun h => (nomatch h))
    | allow =>
      dsimp only
      cases rt.registry.execute w' call.name arguments .allow with
      | mk w'' result =>
        cases result with
        | ok execution => exact hallow rfl
        | error e => exact hallow rfl

/-! ### A whole run -/

/-- The log is made of what calls leave, one after another. -/
def CallsOf (rt : OneAgentRuntime W) (log : List (Event W)) : Prop :=
  ∃ calls : List (W × ToolCallRequest × List (Event W)),
    log = calls.flatMap (fun c => c.2.2) ∧ ∀ c ∈ calls, Called rt c.1 c.2.1 c.2.2

/-- The log is that of calls with objects for arguments, in the worlds they were made in. -/
def MadeCalls (rt : OneAgentRuntime W) (log : List (Event W)) : Prop :=
  ∃ made : List (W × ToolCallData × List (String × Json)),
    log = made.flatMap (fun c => (rt.callTool c.1 c.2.1 (.obj c.2.2)).2.2)

theorem MadeCalls.append {log : List (Event W)} (h : MadeCalls rt log) (w : W) (call : ToolCallData)
    (fields : List (String × Json)) :
    MadeCalls rt (log ++ (rt.callTool w call (.obj fields)).2.2) := by
  obtain ⟨made, rfl⟩ := h
  refine ⟨made ++ [(w, call, fields)], ?_⟩
  rw [flatMap_append, flatMap_singleton]

theorem MadeCalls.calls {log : List (Event W)} (h : MadeCalls rt log) : CallsOf rt log := by
  obtain ⟨made, rfl⟩ := h
  refine ⟨made.map (fun c => (c.1, rt.request c.2.1.name (.obj c.2.2),
    (rt.callTool c.1 c.2.1 (.obj c.2.2)).2.2)), by rw [flatMap_map], fun c hc => ?_⟩
  obtain ⟨made, -, rfl⟩ := mem_map.mp hc
  exact callTool_events rt made.1 made.2.1 (.obj made.2.2)

def Objects (parsed : List (String × Json)) : Prop := ∀ p ∈ parsed, ∃ fields, p.2 = .obj fields

theorem madeCalls_callAll {parsed : List (String × Json)} (hobjects : Objects parsed)
    (calls : List ToolCallData) :
    ∀ s : Progress W, MadeCalls rt s.log → MadeCalls rt (rt.callAll parsed calls s).log := by
  induction calls with
  | nil => exact fun s h => h
  | cons call rest ih =>
    intro s h
    rw [callAll]
    cases hlookup : parsed.reverse.lookup call.callId with
    | none => exact ih s h
    | some arguments =>
      obtain ⟨fields, rfl⟩ := hobjects _ (mem_reverse.mp (OrdMap.mem_of_lookup hlookup))
      exact ih _ (h.append s.world call fields)

theorem readEvents_log (rt : OneAgentRuntime W) (events : List StreamEvent) :
    ∀ (s : Progress W) (r : Reading),
    (rt.readEvents events s r).1.log = s.log := by
  induction events with
  | nil => exact fun s r => rfl
  | cons event rest ih =>
    intro s r
    cases event with
    | delta text => exact ih _ r
    | usage usage => exact ih _ r
    | completed reason => exact ih _ r
    | toolCallDelta callId index name argumentsDelta => rfl
    | toolRequest callId name arguments =>
      rw [readEvents]
      split
      · exact ih s _
      · exact ih _ _

theorem readEvents_objects (rt : OneAgentRuntime W) (events : List StreamEvent) :
    ∀ (s : Progress W) (r : Reading) {s' : Progress W} {r' : Reading}, Objects r.requestedTools →
    rt.readEvents events s r = (s', .ok r') → Objects r'.requestedTools := by
  induction events with
  | nil =>
    intro s r s' r' hobjects h
    obtain rfl := Except.ok.inj (Prod.mk.inj h).2
    exact hobjects
  | cons event rest ih =>
    intro s r s' r' hobjects h
    cases event with
    | delta text => exact ih _ r hobjects h
    | usage usage => exact ih _ r hobjects h
    | completed reason => exact ih _ r hobjects h
    | toolCallDelta callId index name argumentsDelta => cases (Prod.mk.inj h).2
    | toolRequest callId name arguments =>
      rw [readEvents] at h
      split at h
      · next fields _ =>
        refine ih s _ (fun p hp => ?_) h
        rcases mem_append.mp hp with hp | hp
        · exact hobjects p hp
        · exact ⟨fields, by rw [mem_singleton.mp hp]⟩
      · refine ih _ _ ?_ h
        exact hobjects

theorem complete_log (s : Progress W) : (complete s).1.log = s.log := by
  rw [complete]
  cases transition s.state .executing with
  | error e => rfl
  | ok state =>
    dsimp only
    cases transition state .verifying with
    | error e => rfl
    | ok state =>
      dsimp only
      cases transition state .completed with
      | error e => rfl
      | ok state => rfl

variable {s : Progress W}

theorem madeCalls_answerCalls {reading : Reading}
    (hobjects : Objects reading.requestedTools) (h : MadeCalls rt s.log) :
    MadeCalls rt (rt.answerCalls reading s).1.log := by
  rw [answerCalls]
  cases transition s.state .executing with
  | error e => exact h
  | ok state =>
    have hcalls := madeCalls_callAll hobjects reading.issuedCalls { s with state := state } h
    dsimp only
    cases transition (rt.callAll reading.requestedTools reading.issuedCalls
      { s with state := state }).state .streaming with
    | error e => exact hcalls
    | ok state => exact hcalls

theorem madeCalls_invoke (h : MadeCalls rt s.log) : MadeCalls rt (rt.invoke s).1.log := by
  rw [invoke]
  cases rt.transport s.world with
  | mk w answer =>
    cases answer with
    | error message => exact h
    | ok events =>
      have hread := readEvents_log rt (ToolCallAssembler.new.feedAll events)
        { s with world := w } ⟨[], []⟩
      dsimp only
      cases hr : rt.readEvents (ToolCallAssembler.new.feedAll events) { s with world := w }
          ⟨[], []⟩ with
      | mk s' result =>
        rw [hr] at hread
        have h' : MadeCalls rt s'.log := by
          rw [hread]
          exact h
        cases result with
        | error e => exact h'
        | ok reading =>
          dsimp only
          split_ifs
          · rw [complete_log]
            exact h'
          · refine madeCalls_answerCalls (readEvents_objects rt _ _ ⟨[], []⟩ (fun p hp => ?_) hr) h'
            cases hp

theorem madeCalls_turn (h : MadeCalls rt s.log) : MadeCalls rt (rt.turn s).1.log := by
  rw [turn]
  cases rt.control with
  | none => exact madeCalls_invoke h
  | some control =>
    dsimp only
    split_ifs
    · exact h
    · exact h
    · exact madeCalls_invoke h

theorem madeCalls_turns (n : Nat) : ∀ s : Progress W, MadeCalls rt s.log →
    MadeCalls rt (rt.turns n s).1.log := by
  induction n with
  | zero =>
    intro s h
    rw [turns]
    cases transition s.state .failed with
    | error e => exact h
    | ok state => exact h
  | succ n ih =>
    intro s h
    have hturn := madeCalls_turn h
    rw [turns]
    cases ht : rt.turn s with
    | mk s' result =>
      rw [ht] at hturn
      cases result with
      | some result => exact hturn
      | none => exact ih s' hturn

/-- **The log of a run is made of the calls of its tools.** -/
theorem run_madeCalls (rt : OneAgentRuntime W) (w : W) : MadeCalls rt (rt.run w).1.log :=
  madeCalls_turns rt.maxTurns _ ⟨[], rfl⟩

/-- **The log of a run is made of its calls.** -/
theorem run_calls (rt : OneAgentRuntime W) (w : W) : CallsOf rt (rt.run w).1.log :=
  (run_madeCalls rt w).calls

theorem run_forall_iff {P Q : Event W → Prop}
    (h : ∀ w r events, Called rt w r events → ((∀ e ∈ events, P e) ↔ ∀ e ∈ events, Q e)) (w : W) :
    (∀ e ∈ (rt.run w).1.log, P e) ↔ ∀ e ∈ (rt.run w).1.log, Q e := by
  obtain ⟨calls, hlog, hcalls⟩ := run_calls rt w
  rw [hlog]
  simp only [mem_flatMap]
  constructor
  · rintro hP e ⟨c, hc, he⟩
    exact (h c.1 c.2.1 c.2.2 (hcalls c hc)).mp (fun e he => hP e ⟨c, hc, he⟩) e he
  · rintro hQ e ⟨c, hc, he⟩
    exact (h c.1 c.2.1 c.2.2 (hcalls c hc)).mpr (fun e he => hQ e ⟨c, hc, he⟩) e he

end OneAgentRuntime

end Agent

end Modbit
