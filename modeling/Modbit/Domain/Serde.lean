import Modbit.Domain.Events
import Modbit.Lib.Json

/-!
# The JSON of a domain event

What `#[derive(Serialize, Deserialize)]` makes of `DomainEvent`: an object whose
field `event` is the snake-case variant name (`tag = "event"`), followed by the
fields in declaration order.  A missing optional field reads as its default
where the source says `#[serde(default)]`.  A double that is not finite is
written as `null`, which does not read back.

`fromJson_toJson` is the round trip, for every event whose JSON is `Faithful`:
all of them but a cost record with a cost that is not finite.
-/

namespace Modbit

open Lib

namespace WaitingReason

def tag : WaitingReason → String
  | .userInput => "user_input"
  | .approval => "approval"
  | .capacity => "capacity"
  | .external => "external"
  | .provider => "provider"

def ofTag (s : String) : Option WaitingReason :=
  [userInput, approval, capacity, external, provider].find? (fun r => r.tag = s)

end WaitingReason

namespace StepType

def asStr : StepType → String
  | .contextCompile => "context_compile"
  | .modelInvoke => "model_invoke"
  | .toolCall => "tool_call"
  | .procedureRun => "procedure_run"
  | .approvalWait => "approval_wait"
  | .verification => "verification"
  | .checkpoint => "checkpoint"
  | .handoff => "handoff"
  | .userQuestion => "user_question"

def ofTag (s : String) : Option StepType :=
  [contextCompile, modelInvoke, toolCall, procedureRun, approvalWait, verification, checkpoint,
    handoff, userQuestion].find? (fun t => t.asStr = s)

@[simp] theorem ofTag_asStr (t : StepType) : ofTag t.asStr = some t := by cases t <;> decide

end StepType

namespace InputMode

def ofTag (s : String) : Option InputMode :=
  [steer, collect, followUp, sideQuestion].find? (fun m => m.asStr = s)

end InputMode

namespace F64

def toJson : F64 → Json
  | .finite text => .float text
  | .infinite _ => .null
  | .nan => .null

def fromJson : Json → Option F64
  | .float text => some (.finite text)
  | _ => none

end F64

def Id.toJson {kind : IdKind} (id : Id kind) : Json := .str id.toText

-- Irreducible so that unification stops here and does not run the parser.
@[irreducible] def Id.fromJson {kind : IdKind} (j : Json) : Option (Id kind) :=
  j.asStr.bind Id.parse

@[simp] theorem Id.fromJson_toJson {kind : IdKind} (id : Id kind) :
    (Id.fromJson id.toJson : Option (Id kind)) = some id := by
  unfold Id.fromJson
  simp [Id.toJson]

namespace DomainEvent

def fields : DomainEvent → List (String × Json)
  | sessionCreated displayName => [("display_name", .str displayName)]
  | taskCreated sessionId title prompt repoId baseBranch parentTaskId =>
    [("session_id", sessionId.toJson), ("title", .str title), ("prompt", .str prompt),
     ("repo_id", .ofOptStr repoId), ("base_branch", .ofOptStr baseBranch),
     ("parent_task_id", .ofOptStr parentTaskId)]
  | taskQueued => []
  | taskStarted => []
  | taskWaiting reason => [("reason", .str reason.tag)]
  | taskReadyForReview => []
  | taskCompleted summary => [("summary", .str summary)]
  | taskFailed failureCode message =>
    [("failure_code", .str failureCode), ("message", .str message)]
  | taskCancelled reason => [("reason", .str reason)]
  | taskSteered steerNote => [("steer_note", .str steerNote)]
  | reviewHunkResolved path newStart accepted revision =>
    [("path", .str path), ("new_start", .num newStart), ("accepted", .bool accepted),
     ("revision", .str revision)]
  | reviewCommentAdded path newStart body revision =>
    [("path", .str path), ("new_start", .num newStart), ("body", .str body),
     ("revision", .str revision)]
  | runStarted taskId attempt => [("task_id", taskId.toJson), ("attempt", .num attempt)]
  | runCompleted => []
  | runCostRecorded taskId model invocations inputTokens outputTokens costUsd
      unpricedInvocations =>
    [("task_id", .str taskId), ("model", .str model), ("invocations", .num invocations),
     ("input_tokens", .num inputTokens), ("output_tokens", .num outputTokens),
     ("cost_usd", costUsd.toJson), ("unpriced_invocations", .num unpricedInvocations)]
  | runFailed failureCode => [("failure_code", .str failureCode)]
  | turnPrepared runId ordinal => [("run_id", runId.toJson), ("ordinal", .num ordinal)]
  | turnCompleted => []
  | turnFailed failureCode => [("failure_code", .str failureCode)]
  | runStepPrepared turnId stepType ordinal =>
    [("turn_id", turnId.toJson), ("step_type", .str stepType.asStr), ("ordinal", .num ordinal)]
  | runStepCompleted => []
  | runStepFailed failureCode => [("failure_code", .str failureCode)]
  | compactionApplied turnId epochId affectedMessages reclaimedTokens manifestDigest =>
    [("turn_id", turnId.toJson), ("epoch_id", .str epochId),
     ("affected_messages", .num affectedMessages), ("reclaimed_tokens", .num reclaimedTokens),
     ("manifest_digest", .str manifestDigest)]
  | conversationCheckpointed turnOrdinal conversationJson =>
    [("turn_ordinal", .num turnOrdinal), ("conversation_json", .str conversationJson)]
  | worktreeCheckpointed epoch journalJson =>
    [("epoch", .num epoch), ("journal_json", .str journalJson)]
  | toolOutputChunk brokerRunId offset byteLength preview =>
    [("broker_run_id", .str brokerRunId), ("offset", .num offset),
     ("byte_length", .num byteLength), ("preview", .str preview)]
  | sessionForked sourceSession atSequence carriedDecisions carriedEvidenceRefs =>
    [("source_session", sourceSession.toJson), ("at_sequence", .num atSequence),
     ("carried_decisions", .ofStrList carriedDecisions),
     ("carried_evidence_refs", .ofStrList carriedEvidenceRefs)]
  | sessionRewound toSequence revertedEventCount previousLastHash =>
    [("to_sequence", .num toSequence), ("reverted_event_count", .num revertedEventCount),
     ("previous_last_hash", .str previousLastHash)]
  | goalSet objective acceptanceCriteria =>
    [("objective", .str objective), ("acceptance_criteria", .ofStrList acceptanceCriteria)]
  | taskInputQueued inputId mode text =>
    [("input_id", .str inputId), ("mode", .str mode.asStr), ("text", .str text)]
  | sideQuestionAsked questionId question contextEventCount =>
    [("question_id", .str questionId), ("question", .str question),
     ("context_event_count", .num contextEventCount)]
  | indexUpdated reason workspaceRevision fileCount rootDigest recomputed recomputedTruncated =>
    [("reason", .str reason), ("workspace_revision", .num workspaceRevision),
     ("file_count", .num fileCount), ("root_digest", .str rootDigest),
     ("recomputed", .ofStrList recomputed), ("recomputed_truncated", .bool recomputedTruncated)]

def toJson (e : DomainEvent) : Json := .obj (("event", .str (eventTypeOf e)) :: e.fields)

/-! ### Reading -/

section Readers

variable (j : Json)

def str (name : String) : Option String := (j.field name).bind Json.asStr

def nat (name : String) : Option Nat := (j.field name).bind Json.asNat

def bool (name : String) : Option Bool := (j.field name).bind Json.asBool

def strList (name : String) : Option (List String) := (j.field name).bind Json.asStrList

def id {kind : IdKind} (name : String) : Option (Id kind) := (j.field name).bind Id.fromJson

/-- An optional text, absent or `null` when there is none. -/
def optStr (name : String) : Option (Option String) :=
  match j.field name with
  | none => some none
  | some v => v.asOptStr

/-- A text with `#[serde(default)]`. -/
def strOrDefault (name : String) : Option String :=
  match j.field name with
  | none => some ""
  | some v => v.asStr

end Readers

def fromJson (j : Json) : Option DomainEvent := do
  match ← str j "event" with
  | "session_created" => return sessionCreated (← str j "display_name")
  | "task_created" =>
    return taskCreated (← id j "session_id") (← str j "title") (← str j "prompt")
      (← optStr j "repo_id") (← optStr j "base_branch") (← optStr j "parent_task_id")
  | "task_queued" => return taskQueued
  | "task_started" => return taskStarted
  | "task_waiting" => return taskWaiting (← (← str j "reason") |> WaitingReason.ofTag)
  | "task_ready_for_review" => return taskReadyForReview
  | "task_completed" => return taskCompleted (← str j "summary")
  | "task_failed" => return taskFailed (← str j "failure_code") (← str j "message")
  | "task_cancelled" => return taskCancelled (← str j "reason")
  | "task_steered" => return taskSteered (← str j "steer_note")
  | "review_hunk_resolved" =>
    return reviewHunkResolved (← str j "path") (← nat j "new_start") (← bool j "accepted")
      (← strOrDefault j "revision")
  | "review_comment_added" =>
    return reviewCommentAdded (← str j "path") (← nat j "new_start") (← str j "body")
      (← str j "revision")
  | "run_started" => return runStarted (← id j "task_id") (← nat j "attempt")
  | "run_completed" => return runCompleted
  | "run_cost_recorded" =>
    return runCostRecorded (← str j "task_id") (← str j "model") (← nat j "invocations")
      (← nat j "input_tokens") (← nat j "output_tokens")
      (← (j.field "cost_usd").bind F64.fromJson) (← nat j "unpriced_invocations")
  | "run_failed" => return runFailed (← str j "failure_code")
  | "turn_prepared" => return turnPrepared (← id j "run_id") (← nat j "ordinal")
  | "turn_completed" => return turnCompleted
  | "turn_failed" => return turnFailed (← str j "failure_code")
  | "run_step_prepared" =>
    return runStepPrepared (← id j "turn_id") (← (← str j "step_type") |> StepType.ofTag)
      (← nat j "ordinal")
  | "run_step_completed" => return runStepCompleted
  | "run_step_failed" => return runStepFailed (← str j "failure_code")
  | "compaction_applied" =>
    return compactionApplied (← id j "turn_id") (← str j "epoch_id") (← nat j "affected_messages")
      (← nat j "reclaimed_tokens") (← str j "manifest_digest")
  | "conversation_checkpointed" =>
    return conversationCheckpointed (← nat j "turn_ordinal") (← str j "conversation_json")
  | "worktree_checkpointed" =>
    return worktreeCheckpointed (← nat j "epoch") (← str j "journal_json")
  | "tool_output_chunk" =>
    return toolOutputChunk (← str j "broker_run_id") (← nat j "offset") (← nat j "byte_length")
      (← str j "preview")
  | "session_forked" =>
    return sessionForked (← id j "source_session") (← nat j "at_sequence")
      (← strList j "carried_decisions") (← strList j "carried_evidence_refs")
  | "session_rewound" =>
    return sessionRewound (← nat j "to_sequence") (← nat j "reverted_event_count")
      (← str j "previous_last_hash")
  | "goal_set" => return goalSet (← str j "objective") (← strList j "acceptance_criteria")
  | "task_input_queued" =>
    return taskInputQueued (← str j "input_id") (← (← str j "mode") |> InputMode.ofTag)
      (← str j "text")
  | "side_question_asked" =>
    return sideQuestionAsked (← str j "question_id") (← str j "question")
      (← nat j "context_event_count")
  | "index_updated" =>
    return indexUpdated (← str j "reason") (← nat j "workspace_revision") (← nat j "file_count")
      (← str j "root_digest") (← strList j "recomputed") (← bool j "recomputed_truncated")
  | _ => none

def Faithful : DomainEvent → Prop
  | runCostRecorded _ _ _ _ _ (.finite _) _ => True
  | runCostRecorded .. => False
  | _ => True

instance (e : DomainEvent) : Decidable e.Faithful := by
  cases e with
  | runCostRecorded _ _ _ _ _ cost _ =>
    cases cost with
    | finite _ => exact .isTrue trivial
    | infinite _ | nan => exact .isFalse (fun h => h)
  | _ => exact .isTrue trivial

theorem fromJson_taskCreated (s : SessionId) (title prompt : String) (r b p : Option String) :
    fromJson (taskCreated s title prompt r b p).toJson
      = some (taskCreated s title prompt r b p) := by
  change (do
    return taskCreated (← Id.fromJson s.toJson) title prompt (← Json.asOptStr (Json.ofOptStr r))
      (← Json.asOptStr (Json.ofOptStr b)) (← Json.asOptStr (Json.ofOptStr p))) = _
  simp

theorem fromJson_sessionForked (s : SessionId) (n : Nat) (ds es : List String) :
    fromJson (sessionForked s n ds es).toJson = some (sessionForked s n ds es) := by
  change (do
    return sessionForked (← Id.fromJson s.toJson) n (← Json.asStrList (Json.ofStrList ds))
      (← Json.asStrList (Json.ofStrList es))) = _
  simp

theorem fromJson_goalSet (o : String) (cs : List String) :
    fromJson (goalSet o cs).toJson = some (goalSet o cs) := by
  change (do return goalSet o (← Json.asStrList (Json.ofStrList cs))) = _
  simp

theorem fromJson_indexUpdated (r : String) (w f : Nat) (d : String) (cs : List String) (t : Bool) :
    fromJson (indexUpdated r w f d cs t).toJson = some (indexUpdated r w f d cs t) := by
  change (do return indexUpdated r w f d (← Json.asStrList (Json.ofStrList cs)) t) = _
  simp

theorem fromJson_runStarted (t : TaskId) (n : Nat) :
    fromJson (runStarted t n).toJson = some (runStarted t n) := by
  change (do return runStarted (← Id.fromJson t.toJson) n) = _
  simp

theorem fromJson_turnPrepared (r : RunId) (n : Nat) :
    fromJson (turnPrepared r n).toJson = some (turnPrepared r n) := by
  change (do return turnPrepared (← Id.fromJson r.toJson) n) = _
  simp

theorem fromJson_runStepPrepared (t : TurnId) (k : StepType) (n : Nat) :
    fromJson (runStepPrepared t k n).toJson = some (runStepPrepared t k n) := by
  change (do return runStepPrepared (← Id.fromJson t.toJson) (← StepType.ofTag k.asStr) n) = _
  simp

theorem fromJson_compactionApplied (t : TurnId) (e : String) (a r : Nat) (d : String) :
    fromJson (compactionApplied t e a r d).toJson = some (compactionApplied t e a r d) := by
  change (do return compactionApplied (← Id.fromJson t.toJson) e a r d) = _
  simp

/-- **The JSON of an event reads back as the event.**  The variants with an
identity or a list go through their own lemma; for the others the reader
computes. -/
theorem fromJson_toJson (e : DomainEvent) (h : e.Faithful) : fromJson e.toJson = some e := by
  cases e with
  | taskCreated => exact fromJson_taskCreated ..
  | sessionForked => exact fromJson_sessionForked ..
  | goalSet => exact fromJson_goalSet ..
  | indexUpdated => exact fromJson_indexUpdated ..
  | runStarted => exact fromJson_runStarted ..
  | turnPrepared => exact fromJson_turnPrepared ..
  | runStepPrepared => exact fromJson_runStepPrepared ..
  | compactionApplied => exact fromJson_compactionApplied ..
  | taskWaiting reason => cases reason <;> rfl
  | taskInputQueued _ mode _ => cases mode <;> rfl
  | runCostRecorded _ _ _ _ _ cost _ =>
    cases cost with
    | finite => rfl
    | infinite => exact h.elim
    | nan => exact h.elim
  | _ => rfl

theorem faithful_of_fromJson {e p : DomainEvent} (h : fromJson e.toJson = some p) :
    e.Faithful := by
  cases e with
  | runCostRecorded _ _ _ _ _ cost _ =>
    cases cost with
    | finite _ => exact trivial
    | infinite _ | nan => cases h
  | _ => exact trivial

end DomainEvent

end Modbit
