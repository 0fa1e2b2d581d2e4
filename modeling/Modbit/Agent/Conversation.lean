import Modbit.Agent.Runtime
import Modbit.Compaction.Pairing
import Modbit.Domain.Events

/-!
# The conversation of a run

The loop of `OneAgentRuntime::run`, with the messages it sends.  At the boundary of a turn steer
notes are added as user messages, and the conversation is compacted if it is over its budget.  The
calls of the answer go into an assistant message, and each of them is answered by a result: of the
tool, of its refusal, or of its bad payload.

A plan may be made by a worker, for the conversation at some earlier boundary.  It is taken only if
there was no compaction since, so what it was made for is a first part of what it is applied to
(`Made`).  `requests_paired`: in all that is sent the calls and the results are paired.
-/

namespace Modbit

open Lib List

namespace Agent

open Compaction (ChatMessage ConversationItem CompactionPlan Paired itemOf planCompaction applyActions
  estimateTokens)

variable {W : Type}

/-! ### Messages -/

def ToolCallData.issued (call : ToolCallData) : Compaction.ToolCallData :=
  ⟨call.callId.toList, call.name.toList, call.arguments.toList⟩

def userMessage (content : String) : ChatMessage := .user content.toList

def assistantWithToolCalls (content : String) (calls : List ToolCallData) : ChatMessage :=
  ⟨.assistant, content.toList, calls.map ToolCallData.issued, none, false⟩

def toolResult (callId content : String) (isError : Bool) : ChatMessage :=
  ⟨.tool, content.toList, [], some callId.toList, isError⟩

def callJson (call : Compaction.ToolCallData) : Json :=
  .obj [("call_id", .str (.ofList call.callId)), ("name", .str (.ofList call.name)),
    ("arguments", .str (.ofList call.arguments))]

def roleText : Compaction.Role → String
  | .user => "user"
  | .assistant => "assistant"
  | .tool => "tool"

/-- Empty lists, missing ids and `false` are not written. -/
def messageJson (m : ChatMessage) : Json :=
  .obj ([("role", .str (roleText m.role)), ("content", .str (.ofList m.content))]
    ++ (if m.toolCalls = [] then [] else [("tool_calls", .arr (m.toolCalls.map callJson))])
    ++ (m.toolCallId.map (fun id => ("tool_call_id", Json.str (.ofList id)))).toList
    ++ (if m.isError then [("is_error", .bool true)] else []))

/-- `serde_json::to_string`. -/
def conversationText (c : List ChatMessage) : String := (Json.arr (c.map messageJson)).render

def maxCheckpointBytes : Nat := 256 * 1024

/-- The event that checkpoints a turn, unless it is too long. -/
def checkpoint (turnsUsed : Nat) (c : List ChatMessage) : Option DomainEvent :=
  if (conversationText c).utf8ByteSize ≤ maxCheckpointBytes then
    some (.conversationCheckpointed turnsUsed (conversationText c))
  else none

def interruptionNote : String :=
  "[system] the previous run attempt was interrupted after this point; effects between here and "
    ++ "the interruption may have partially applied; verify worktree state before continuing."

/-- A checkpoint is taken up if there is something in it. -/
def restored : Option (List ChatMessage) → Option (List ChatMessage)
  | some (m :: rest) => some (m :: rest)
  | _ => none

def startConversation (compiled : String) (resume : Option (List ChatMessage)) : List ChatMessage :=
  (restored resume).getD [userMessage compiled]
    ++ if resume.isSome then [userMessage interruptionNote] else []

/-! ### The loop -/

/-- What the loop keeps beside the progress of the run. -/
structure Talk where
  conversation : List ChatMessage
  /-- How often the conversation was compacted. -/
  structureEpoch : Nat
  /-- The workers that are planning: the epoch and the items each was started with. -/
  workers : List (Nat × List ConversationItem)
  slot : Option (Nat × CompactionPlan)
  requests : List (List ChatMessage)
  checkpoints : List DomainEvent

structure Loop (W : Type) where
  rt : OneAgentRuntime W
  /-- The transport is given the messages. -/
  send : List ChatMessage → W → W
  takeSteerNotes : W → W × List String
  /-- The workers that have come to their end when the plan is taken, in this order. -/
  arrivals : W → W × List Nat
  asyncCompaction : Bool
  maxInputTokens : Nat

def Talk.say (t : Talk) (messages : List ChatMessage) : Talk :=
  { t with conversation := t.conversation ++ messages }

def steerMessage (note : String) : ChatMessage := userMessage ("user steer: " ++ note)

def turnText : List StreamEvent → String
  | [] => ""
  | .delta text :: rest => text ++ turnText rest
  | _ :: rest => turnText rest

def ToolOutcome.content (outcome : ToolOutcome) : String :=
  match outcome.result, outcome.refusal with
  | some result, _ => result.render
  | none, some refusal => refusal
  | none, none => ""

namespace Loop

variable (l : Loop W)

/-- A worker is started when the conversation is over a fifth of the budget. -/
def spawnWorker (t : Talk) : Talk :=
  if l.asyncCompaction
      ∧ l.maxInputTokens / 5 < (t.conversation.map (fun m => estimateTokens m.content)).sum then
    { t with workers := t.workers ++ [(t.structureEpoch, t.conversation.map itemOf)] }
  else t

/-- A worker puts its plan in the slot, or empties it. -/
def finishWorker (t : Talk) (i : Nat) : Talk :=
  match t.workers[i]? with
  | none => t
  | some (epoch, snapshot) =>
    { t with
      workers := t.workers.eraseIdx i
      slot := (planCompaction snapshot l.maxInputTokens).map (fun plan => (epoch, plan)) }

/-- The plan in the slot, if it is of this epoch, or one made now. -/
def candidate (t : Talk) : Option CompactionPlan :=
  match t.slot with
  | some (epoch, plan) =>
    if epoch = t.structureEpoch then some plan
    else planCompaction (t.conversation.map itemOf) l.maxInputTokens
  | none => planCompaction (t.conversation.map itemOf) l.maxInputTokens

def compact (t : Talk) : Talk :=
  match l.candidate t with
  | none => { t with slot := none }
  | some plan =>
    { t with
      slot := none
      conversation := applyActions t.conversation plan.actions
      structureEpoch := t.structureEpoch + 1 }

def prepare (w : W) (t : Talk) : W × Talk :=
  match l.arrivals w with
  | (w, arrived) => (w, l.compact (arrived.foldl l.finishWorker (l.spawnWorker t)))

/-- The issued calls in order, each with its result. -/
def answerAll (parsed : List (String × Json)) :
    List ToolCallData → Progress W → Progress W × List ChatMessage
  | [], s => (s, [])
  | call :: rest, s =>
    match parsed.reverse.lookup call.callId with
    | none =>
      let out := answerAll parsed rest s
      (out.1, toolResult call.callId invalidToolPayload true :: out.2)
    | some arguments =>
      match l.rt.callTool s.world call arguments with
      | (w, outcome, events) =>
        let out := answerAll parsed rest { s with world := w
                                                  toolOutcomes := s.toolOutcomes ++ [outcome]
                                                  log := s.log ++ events }
        (out.1, toolResult outcome.callId outcome.content outcome.refusal.isSome :: out.2)

/-- The calls of an answer and their results, and the checkpoint of the turn. -/
def answer (text : String) (r : OneAgentRuntime.Reading) (s : Progress W) (t : Talk) :
    Progress W × Talk × Option (Except AgentError AgentRunResult) :=
  let asked := t.say [assistantWithToolCalls text r.issuedCalls]
  match transition s.state .executing with
  | .error e => (s, asked, some (.error e))
  | .ok state =>
    match l.answerAll r.requestedTools r.issuedCalls { s with state := state } with
    | (s, results) =>
      let answered := asked.say results
      let t := { answered with
        checkpoints := answered.checkpoints
          ++ (checkpoint s.turnsUsed answered.conversation).toList }
      match transition s.state .streaming with
      | .error e => (s, t, some (.error e))
      | .ok state => ({ s with state := state }, t, none)

def invoke (s : Progress W) (t : Talk) :
    Progress W × Talk × Option (Except AgentError AgentRunResult) :=
  let t := { t with requests := t.requests ++ [t.conversation] }
  match l.rt.transport (l.send t.conversation s.world) with
  | (w, .error message) => ({ s with world := w }, t, some (.error (.transport message)))
  | (w, .ok events) =>
    let events := ToolCallAssembler.new.feedAll events
    match l.rt.readEvents events { s with world := w } ⟨[], []⟩ with
    | (s, .error e) => (s, t, some (.error e))
    | (s, .ok r) =>
      if r.issuedCalls.isEmpty then
        match OneAgentRuntime.complete s with
        | (s, result) => (s, t, some result)
      else l.answer (turnText events) r s t

def proceed (s : Progress W) (t : Talk) :
    Progress W × Talk × Option (Except AgentError AgentRunResult) :=
  match l.prepare s.world t with
  | (w, t) => l.invoke { s with world := w } t

def turn (s : Progress W) (t : Talk) :
    Progress W × Talk × Option (Except AgentError AgentRunResult) :=
  let s := { s with turnsUsed := s.turnsUsed + 1 }
  match l.rt.control with
  | none => l.proceed s t
  | some control =>
    match l.takeSteerNotes s.world with
    | (w, notes) =>
      let t := t.say (notes.map steerMessage)
      match control w with
      | (w, cancelled, paused) =>
        let s := { s with world := w }
        if cancelled then (s, t, some (.ok (s.result (some "cancelled") true false)))
        else if paused then (s, t, some (.ok (s.result (some "paused") false true)))
        else l.proceed s t

def turns : Nat → Progress W → Talk → Progress W × Talk × Except AgentError AgentRunResult
  | 0, s, t =>
    match transition s.state .failed with
    | .error e => (s, t, .error e)
    | .ok state =>
      let s := { s with state := state }
      (s, t, .ok (s.result (some "max_turns_exceeded") false false))
  | n + 1, s, t =>
    match l.turn s t with
    | (s, t, some result) => (s, t, result)
    | (s, t, none) => turns n s t

def startTalk (compiled : String) (resume : Option (List ChatMessage)) : Talk :=
  ⟨startConversation compiled resume, 0, [], none, [], []⟩

def run (w : W) (compiled : String) (resume : Option (List ChatMessage)) :
    Progress W × Talk × Except AgentError AgentRunResult :=
  match transition TurnState.prepared .streaming with
  | .error e => (OneAgentRuntime.start w, startTalk compiled resume, .error e)
  | .ok state =>
    l.turns l.rt.maxTurns { OneAgentRuntime.start w with state := state }
      (startTalk compiled resume)

/-! ### What a turn keeps -/

/-- The items are those of a first part of the conversation, if the epoch is the current one. -/
def Made (t : Talk) (epoch : Nat) (items : List ConversationItem) : Prop :=
  epoch ≤ t.structureEpoch ∧ (epoch = t.structureEpoch → ∃ c d : List ChatMessage,
    t.conversation = c ++ d ∧ items = c.map itemOf ∧ Paired c ∧ Paired d)

/-- What was sent is paired, and so is what was written, with something in it. -/
structure Delivered (t : Talk) : Prop where
  requests : ∀ messages ∈ t.requests, Paired messages
  checkpoints : ∀ e ∈ t.checkpoints, ∃ n c, c ≠ [] ∧ Paired c ∧ checkpoint n c = some e

structure Sound (t : Talk) : Prop extends Delivered t where
  paired : Paired t.conversation
  workers : ∀ p ∈ t.workers, Made t p.1 p.2
  slot : ∀ p ∈ t.slot, ∃ items, planCompaction items l.maxInputTokens = some p.2 ∧ Made t p.1 items

variable {l} {t : Talk} {s : Progress W}

theorem Made.say {epoch : Nat} {items : List ConversationItem} {messages : List ChatMessage}
    (h : Made t epoch items) (hm : Paired messages) : Made (t.say messages) epoch items := by
  refine ⟨h.1, fun he => ?_⟩
  obtain ⟨c, d, hc, hitems, hpc, hpd⟩ := h.2 he
  refine ⟨c, d ++ messages, ?_, hitems, hpc, hpd.append hm⟩
  rw [Talk.say, hc, append_assoc]

theorem Sound.say {messages : List ChatMessage} (h : l.Sound t) (hm : Paired messages) :
    l.Sound (t.say messages) where
  paired := h.paired.append hm
  workers p hp := (h.workers p hp).say hm
  slot p hp := by
    obtain ⟨items, hplan, hmade⟩ := h.slot p hp
    exact ⟨items, hplan, hmade.say hm⟩
  requests := h.requests
  checkpoints := h.checkpoints

theorem sound_spawnWorker (h : l.Sound t) : l.Sound (l.spawnWorker t) := by
  rw [spawnWorker]
  split_ifs
  · refine ⟨⟨h.requests, h.checkpoints⟩, h.paired, ?_, h.slot⟩
    refine forall_mem_append.mpr ⟨h.workers, forall_mem_singleton.mpr ⟨Nat.le_refl _, ?_⟩⟩
    exact fun _ => ⟨t.conversation, [], (append_nil _).symm, rfl, h.paired, .nil⟩
  · exact h

theorem sound_finishWorker (h : l.Sound t) (i : Nat) : l.Sound (l.finishWorker t i) := by
  rw [finishWorker]
  cases hi : t.workers[i]? with
  | none => exact h
  | some p =>
    refine ⟨⟨h.requests, h.checkpoints⟩, h.paired, ?_, ?_⟩
    · exact fun q hq => h.workers q (mem_of_mem_eraseIdx hq)
    · intro q hq
      obtain ⟨plan, hplan, rfl⟩ := Option.map_eq_some_iff.mp hq
      exact ⟨p.2, hplan, h.workers p (mem_of_getElem? hi)⟩

theorem candidate_made {plan : CompactionPlan} (h : l.Sound t) (hplan : l.candidate t = some plan) :
    ∃ c d : List ChatMessage, t.conversation = c ++ d
      ∧ planCompaction (c.map itemOf) l.maxInputTokens = some plan ∧ Paired c ∧ Paired d := by
  have hnow : planCompaction (t.conversation.map itemOf) l.maxInputTokens = some plan →
      ∃ c d : List ChatMessage, t.conversation = c ++ d
        ∧ planCompaction (c.map itemOf) l.maxInputTokens = some plan ∧ Paired c ∧ Paired d :=
    fun hp => ⟨t.conversation, [], (append_nil _).symm, hp, h.paired, .nil⟩
  rw [candidate] at hplan
  cases hslot : t.slot with
  | none =>
    rw [hslot] at hplan
    exact hnow hplan
  | some p =>
    rw [hslot] at hplan
    dsimp only at hplan
    split_ifs at hplan with hepoch
    · obtain ⟨items, hitems, hmade⟩ := h.slot p hslot
      obtain ⟨c, d, hc, rfl, hpc, hpd⟩ := hmade.2 hepoch
      rw [Option.some.inj hplan] at hitems
      exact ⟨c, d, hc, hitems, hpc, hpd⟩
    · exact hnow hplan

theorem sound_compact (h : l.Sound t) : l.Sound (l.compact t) := by
  rw [compact]
  cases hplan : l.candidate t with
  | none => exact ⟨⟨h.requests, h.checkpoints⟩, h.paired, h.workers, fun p hp => (by cases hp)⟩
  | some plan =>
    obtain ⟨c, d, hc, hmade, hpc, hpd⟩ := candidate_made h hplan
    refine ⟨⟨h.requests, h.checkpoints⟩, ?_, ?_, fun p hp => (by cases hp)⟩
    · rw [hc]
      exact Compaction.paired_applyActions hpc hpd hmade
    · intro p hp
      have hold := (h.workers p hp).1
      exact ⟨Nat.le_succ_of_le hold, fun he => absurd (he ▸ hold) (Nat.not_succ_le_self _)⟩

theorem sound_prepare (h : l.Sound t) (w : W) : l.Sound (l.prepare w t).2 := by
  rw [prepare]
  refine sound_compact ?_
  generalize (l.arrivals w).2 = arrived
  have hfold : ∀ t, l.Sound t → l.Sound (arrived.foldl l.finishWorker t) := by
    induction arrived with
    | nil => exact fun t ht => ht
    | cons i arrived ih => exact fun t ht => ih _ (sound_finishWorker ht i)
  exact hfold _ (sound_spawnWorker h)

theorem callTool_callId (rt : OneAgentRuntime W) (w : W) (call : ToolCallData) (arguments : Json) :
    (rt.callTool w call arguments).2.1.callId = call.callId := by
  rw [OneAgentRuntime.callTool]
  generalize rt.decision w (rt.request call.name arguments) = out
  obtain ⟨w', decision, events⟩ := out
  cases decision with
  | deny reason => rfl
  | allow =>
    dsimp only
    generalize rt.registry.execute w' call.name arguments .allow = executed
    obtain ⟨w'', result⟩ := executed
    cases result with
    | ok execution => rfl
    | error e => rfl

theorem answerAll_answers (parsed : List (String × Json)) (calls : List ToolCallData) :
    ∀ s : Progress W, List.Forall₂ ChatMessage.Answers (l.answerAll parsed calls s).2
      (calls.map ToolCallData.issued) := by
  induction calls with
  | nil => exact fun s => .nil
  | cons call calls ih =>
    intro s
    rw [answerAll, map_cons]
    cases parsed.reverse.lookup call.callId with
    | none => exact .cons ⟨rfl, rfl⟩ (ih _)
    | some arguments =>
      refine .cons ⟨rfl, ?_⟩ (ih _)
      show some (l.rt.callTool s.world call arguments).2.1.callId.toList = some call.callId.toList
      rw [callTool_callId]

theorem sound_checkpoint (h : l.Sound t) (ht : t.conversation ≠ []) (n : Nat) :
    l.Sound { t with checkpoints := t.checkpoints ++ (checkpoint n t.conversation).toList } := by
  refine ⟨⟨h.requests, ?_⟩, h.paired, h.workers, h.slot⟩
  refine forall_mem_append.mpr ⟨h.checkpoints, fun e he => ?_⟩
  exact ⟨n, t.conversation, ht, h.paired, Option.mem_toList.mp he⟩

/-- What is left by a turn; if the run goes on it is sound. -/
def Leaves (l : Loop W) (out : Progress W × Talk × Option (Except AgentError AgentRunResult)) :
    Prop :=
  Delivered out.2.1 ∧ (out.2.2 = none → l.Sound out.2.1)

theorem leaves_of_sound {out : Progress W × Talk × Option (Except AgentError AgentRunResult)}
    (h : l.Sound out.2.1) : l.Leaves out := ⟨h.toDelivered, fun _ => h⟩

theorem answer_leaves (h : l.Sound t) (text : String) (r : OneAgentRuntime.Reading)
    (hcalls : r.issuedCalls ≠ []) : l.Leaves (l.answer text r s t) := by
  rw [answer]
  cases transition s.state .executing with
  | error e => exact ⟨⟨h.requests, h.checkpoints⟩, fun hnone => (by cases hnone)⟩
  | ok state =>
    have hanswers := answerAll_answers (l := l) r.requestedTools r.issuedCalls
      { s with state := state }
    dsimp only
    generalize l.answerAll r.requestedTools r.issuedCalls { s with state := state } = out at *
    have hblock : Paired (assistantWithToolCalls text r.issuedCalls :: (out.2 ++ [])) :=
      .block rfl (fun hnil => hcalls (map_eq_nil_iff.mp hnil)) hanswers .nil
    have hsay := h.say hblock
    rw [append_nil, Talk.say, ← singleton_append, ← append_assoc] at hsay
    have hsound := sound_checkpoint hsay (by simp) out.1.turnsUsed
    cases transition out.1.state .streaming with
    | error e => exact leaves_of_sound hsound
    | ok state => exact leaves_of_sound hsound

theorem sound_request (h : l.Sound t) :
    l.Sound { t with requests := t.requests ++ [t.conversation] } :=
  ⟨⟨forall_mem_append.mpr ⟨h.requests, forall_mem_singleton.mpr h.paired⟩, h.checkpoints⟩,
    h.paired, h.workers, h.slot⟩

theorem invoke_leaves (h : l.Sound t) (s : Progress W) : l.Leaves (l.invoke s t) := by
  have hsent := sound_request h
  rw [invoke]
  generalize { t with requests := t.requests ++ [t.conversation] } = sent at *
  generalize l.rt.transport (l.send sent.conversation s.world) = reply
  obtain ⟨w, result⟩ := reply
  cases result with
  | error message => exact leaves_of_sound hsent
  | ok events =>
    dsimp only
    generalize l.rt.readEvents (ToolCallAssembler.new.feedAll events) { s with world := w } ⟨[], []⟩
      = reading
    obtain ⟨s', read⟩ := reading
    cases read with
    | error e => exact leaves_of_sound hsent
    | ok r =>
      dsimp only
      split_ifs with hnone
      · exact leaves_of_sound hsent
      · exact answer_leaves hsent _ r (fun hnil => hnone (by rw [hnil]; rfl))

theorem proceed_leaves (h : l.Sound t) (s : Progress W) : l.Leaves (l.proceed s t) := by
  rw [proceed]
  exact invoke_leaves (sound_prepare h s.world) _

/-- **What one turn leaves.** -/
theorem turn_leaves (h : l.Sound t) (s : Progress W) : l.Leaves (l.turn s t) := by
  rw [turn]
  cases l.rt.control with
  | none => exact proceed_leaves h _
  | some control =>
    dsimp only
    have hnotes : Paired ((l.takeSteerNotes s.world).2.map steerMessage) := by
      have husers := Compaction.paired_users
        ((l.takeSteerNotes s.world).2.map (fun note => ("user steer: " ++ note).toList))
      rw [map_map] at husers
      exact husers
    have hsaid := h.say hnotes
    split_ifs
    · exact leaves_of_sound hsaid
    · exact leaves_of_sound hsaid
    · exact proceed_leaves hsaid _

theorem turns_delivered (n : Nat) : ∀ (s : Progress W) (t : Talk), l.Sound t →
    Delivered (l.turns n s t).2.1 := by
  induction n with
  | zero =>
    intro s t h
    rw [turns]
    cases transition s.state .failed with
    | error e => exact h.toDelivered
    | ok state => exact h.toDelivered
  | succ n ih =>
    intro s t h
    obtain ⟨hdelivered, hgoes⟩ := turn_leaves h s
    rw [turns]
    generalize l.turn s t = out at *
    obtain ⟨s', t', result⟩ := out
    cases result with
    | some result => exact hdelivered
    | none => exact ih s' t' (hgoes rfl)

theorem sound_startTalk {compiled : String} {resume : Option (List ChatMessage)}
    (h : ∀ c ∈ resume, Paired c) : l.Sound (startTalk compiled resume) := by
  have hrestored : Paired ((restored resume).getD [userMessage compiled]) := by
    cases resume with
    | none => exact Compaction.paired_user _
    | some c =>
      cases c with
      | nil => exact Compaction.paired_user _
      | cons m rest => exact h _ rfl
  refine ⟨⟨?_, ?_⟩, hrestored.append ?_, ?_, ?_⟩
  · exact fun p hp => (by cases hp)
  · exact fun p hp => (by cases hp)
  · split_ifs
    · exact Compaction.paired_user _
    · exact .nil
  · exact fun p hp => (by cases hp)
  · exact fun p hp => (by cases hp)

theorem run_delivered (l : Loop W) (w : W) (compiled : String) {resume : Option (List ChatMessage)}
    (h : ∀ c ∈ resume, Paired c) : Delivered (l.run w compiled resume).2.1 := by
  rw [run]
  exact turns_delivered _ _ _ (sound_startTalk h)

/-- **In every request the calls and the results are paired**: whatever the transport answers, the
tools and the gate do, the notes say and the workers' timing is, from any paired conversation a run
resumes. -/
theorem requests_paired (l : Loop W) (w : W) (compiled : String)
    (resume : Option (List ChatMessage)) (h : ∀ c ∈ resume, Paired c) :
    ∀ messages ∈ (l.run w compiled resume).2.1.requests, Paired messages :=
  (run_delivered l w compiled h).requests

def scripted : Loop Nat where
  rt :=
    { parse := fun s => if s = "\x7b\x7d" then some (.obj []) else none
      transport := fun w => (w + 1, .ok (if w = 0 then
        [.toolRequest "a" "fs.read" "\x7b\x7d", .toolRequest "b" "fs.read" "", .completed none]
        else [.delta "done", .completed (some "stop")]))
      registry := ⟨.empty⟩
      kernel := ⟨[]⟩
      grants := fun _ => []
      maxTurns := 4
      control := some (fun w => (w, false, false))
      approvalGate := none }
  send := fun _ w => w
  takeSteerNotes := fun w => (w, if w = 1 then ["be brief"] else [])
  arrivals := fun w => (w, [0])
  asyncCompaction := true
  maxInputTokens := 10

theorem requests_paired_scripted :
    (scripted.run 0 "fix it" (some [userMessage "fix it"])).2.1.requests.length = 2
      ∧ ∀ messages ∈ (scripted.run 0 "fix it" (some [userMessage "fix it"])).2.1.requests,
        Paired messages :=
  ⟨by decide +kernel, requests_paired scripted 0 "fix it" _
    (fun c hc => Option.some.inj hc ▸ Compaction.paired_user _)⟩

/-! ### The loop without its messages -/

theorem answerAll_fst (parsed : List (String × Json)) (calls : List ToolCallData) :
    ∀ s : Progress W, (l.answerAll parsed calls s).1 = l.rt.callAll parsed calls s := by
  induction calls with
  | nil => exact fun s => rfl
  | cons call calls ih =>
    intro s
    rw [answerAll, OneAgentRuntime.callAll]
    cases parsed.reverse.lookup call.callId with
    | none => exact ih s
    | some arguments => exact ih _

theorem answer_forget (text : String) (r : OneAgentRuntime.Reading) (s : Progress W) (t : Talk) :
    ((l.answer text r s t).1, (l.answer text r s t).2.2) = l.rt.answerCalls r s := by
  rw [answer, OneAgentRuntime.answerCalls]
  cases transition s.state .executing with
  | error e => rfl
  | ok state =>
    dsimp only
    rw [← answerAll_fst]
    generalize l.answerAll r.requestedTools r.issuedCalls { s with state := state } = out
    cases transition out.1.state .streaming with
    | error e => rfl
    | ok state => rfl

theorem invoke_forget (hsend : ∀ c w, l.send c w = w) (s : Progress W) (t : Talk) :
    ((l.invoke s t).1, (l.invoke s t).2.2) = l.rt.invoke s := by
  rw [invoke, OneAgentRuntime.invoke, hsend]
  generalize l.rt.transport s.world = reply
  obtain ⟨w, result⟩ := reply
  cases result with
  | error message => rfl
  | ok events =>
    dsimp only
    generalize l.rt.readEvents (ToolCallAssembler.new.feedAll events) { s with world := w } ⟨[], []⟩
      = reading
    obtain ⟨s', read⟩ := reading
    cases read with
    | error e => rfl
    | ok r =>
      dsimp only
      by_cases hnone : r.issuedCalls.isEmpty = true
      · rw [if_pos hnone, if_pos hnone]
      · rw [if_neg hnone, if_neg hnone]
        exact answer_forget _ r s' _

theorem turn_forget (hsend : ∀ c w, l.send c w = w) (hnotes : ∀ w, (l.takeSteerNotes w).1 = w)
    (harrivals : ∀ w, (l.arrivals w).1 = w) (s : Progress W) (t : Talk) :
    ((l.turn s t).1, (l.turn s t).2.2) = l.rt.turn s := by
  have hproceed : ∀ s t, ((l.proceed s t).1, (l.proceed s t).2.2) = l.rt.invoke s := by
    intro s t
    rw [proceed, prepare]
    dsimp only
    rw [harrivals]
    exact invoke_forget hsend s _
  rw [turn, OneAgentRuntime.turn]
  cases l.rt.control with
  | none => exact hproceed _ t
  | some control =>
    dsimp only
    rw [hnotes]
    generalize control s.world = flags
    obtain ⟨w, cancelled, paused⟩ := flags
    cases cancelled with
    | true => rfl
    | false =>
      cases paused with
      | true => rfl
      | false => exact hproceed _ _

/-- **Where nothing outside looks at the messages, the loop does what it does without them.** -/
theorem run_forget (hsend : ∀ c w, l.send c w = w) (hnotes : ∀ w, (l.takeSteerNotes w).1 = w)
    (harrivals : ∀ w, (l.arrivals w).1 = w) (w : W) (compiled : String)
    (resume : Option (List ChatMessage)) :
    ((l.run w compiled resume).1, (l.run w compiled resume).2.2) = l.rt.run w := by
  have hturns : ∀ n s t, ((l.turns n s t).1, (l.turns n s t).2.2) = l.rt.turns n s := by
    intro n
    induction n with
    | zero =>
      intro s t
      rw [turns, OneAgentRuntime.turns]
      cases transition s.state .failed with
      | error e => rfl
      | ok state => rfl
    | succ n ih =>
      intro s t
      have hturn := turn_forget hsend hnotes harrivals s t
      rw [turns, OneAgentRuntime.turns, ← hturn]
      generalize l.turn s t = out
      obtain ⟨s', t', result⟩ := out
      cases result with
      | some result => rfl
      | none => exact ih s' t'
  rw [run, OneAgentRuntime.run]
  exact hturns _ _ _

theorem run_forget_scripted : ((scripted.run 0 "fix it" none).1, (scripted.run 0 "fix it" none).2.2)
    = scripted.rt.run 0 :=
  run_forget (fun _ _ => rfl) (fun _ => rfl) (fun _ => rfl) 0 "fix it" none

end Loop

end Agent

end Modbit
