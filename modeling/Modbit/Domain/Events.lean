import Modbit.Lib.Uuid

/-!
# Identities and domain events

`crates/domain/src/ids.rs` and the event types of `events.rs`.  The five
identity types are one family `Id`, the macro `define_id!` of the source.
`DomainEvent` has every variant of the source with its fields; unsigned machine
integers are natural numbers, and the one floating-point field is an `F64` that
is never computed with.
-/

namespace Modbit

open Lib

/-! ### Identities -/

inductive IdKind where
  | session | task | run | turn | runStep
deriving DecidableEq

/-- An opaque 128-bit identity; the kind keeps the identity types apart. -/
structure Id (kind : IdKind) where
  uuid : Uuid
deriving DecidableEq

abbrev SessionId := Id .session
abbrev TaskId := Id .task
abbrev RunId := Id .run
abbrev TurnId := Id .turn
abbrev RunStepId := Id .runStep

namespace Id

variable {kind : IdKind}

def toText (id : Id kind) : String := id.uuid.toText

def parse (s : String) : Option (Id kind) := (Uuid.parseStr s).map Id.mk

@[simp] theorem parse_toText (id : Id kind) : (parse id.toText : Option (Id kind)) = some id := by
  simp [parse, toText]

theorem toText_inj {a b : Id kind} (h : a.toText = b.toText) : a = b := by
  cases a; cases b
  exact congrArg Id.mk (Uuid.toText_inj h)

end Id

/-! ### Enumerations -/

inductive AggregateType where
  | session | task | run | turn | runStep
deriving DecidableEq

def AggregateType.asStr : AggregateType → String
  | .session => "session"
  | .task => "task"
  | .run => "run"
  | .turn => "turn"
  | .runStep => "run_step"

inductive ActorType where
  | system | user | agent
deriving DecidableEq

def ActorType.asStr : ActorType → String
  | .system => "system"
  | .user => "user"
  | .agent => "agent"

def ActorType.parse (s : String) : Option ActorType :=
  if s = "system" then some .system
  else if s = "user" then some .user
  else if s = "agent" then some .agent
  else none

structure Actor where
  actorType : ActorType
  actorId : String
deriving DecidableEq

inductive WaitingReason where
  | userInput | approval | capacity | external | provider
deriving DecidableEq

inductive StepType where
  | contextCompile | modelInvoke | toolCall | procedureRun | approvalWait | verification
  | checkpoint | handoff | userQuestion
deriving DecidableEq

inductive InputMode where
  | steer | collect | followUp | sideQuestion
deriving DecidableEq

def InputMode.asStr : InputMode → String
  | .steer => "steer"
  | .collect => "collect"
  | .followUp => "follow_up"
  | .sideQuestion => "side_question"

/-- A double: a finite one is the shortest decimal text it is printed as. -/
inductive F64 where
  | finite (text : String)
  | infinite (negative : Bool)
  | nan
deriving DecidableEq

/-! ### Events -/

inductive DomainEvent where
  | sessionCreated (displayName : String)
  | taskCreated (sessionId : SessionId) (title prompt : String)
      (repoId baseBranch parentTaskId : Option String)
  | taskQueued
  | taskStarted
  | taskWaiting (reason : WaitingReason)
  | taskReadyForReview
  | taskCompleted (summary : String)
  | taskFailed (failureCode message : String)
  | taskCancelled (reason : String)
  | taskSteered (steerNote : String)
  | reviewHunkResolved (path : String) (newStart : Nat) (accepted : Bool) (revision : String)
  | reviewCommentAdded (path : String) (newStart : Nat) (body revision : String)
  | runStarted (taskId : TaskId) (attempt : Nat)
  | runCompleted
  | runCostRecorded (taskId model : String) (invocations inputTokens outputTokens : Nat)
      (costUsd : F64) (unpricedInvocations : Nat)
  | runFailed (failureCode : String)
  | turnPrepared (runId : RunId) (ordinal : Nat)
  | turnCompleted
  | turnFailed (failureCode : String)
  | runStepPrepared (turnId : TurnId) (stepType : StepType) (ordinal : Nat)
  | runStepCompleted
  | runStepFailed (failureCode : String)
  | compactionApplied (turnId : TurnId) (epochId : String) (affectedMessages reclaimedTokens : Nat)
      (manifestDigest : String)
  | conversationCheckpointed (turnOrdinal : Nat) (conversationJson : String)
  | worktreeCheckpointed (epoch : Nat) (journalJson : String)
  | toolOutputChunk (brokerRunId : String) (offset byteLength : Nat) (preview : String)
  | sessionForked (sourceSession : SessionId) (atSequence : Nat)
      (carriedDecisions carriedEvidenceRefs : List String)
  | sessionRewound (toSequence revertedEventCount : Nat) (previousLastHash : String)
  | goalSet (objective : String) (acceptanceCriteria : List String)
  | taskInputQueued (inputId : String) (mode : InputMode) (text : String)
  | sideQuestionAsked (questionId question : String) (contextEventCount : Nat)
  | indexUpdated (reason : String) (workspaceRevision fileCount : Nat) (rootDigest : String)
      (recomputed : List String) (recomputedTruncated : Bool)
deriving DecidableEq

/-- The snake-case name of the variant, which is also its serde tag. -/
def eventTypeOf : DomainEvent → String
  | .sessionCreated .. => "session_created"
  | .taskCreated .. => "task_created"
  | .taskQueued => "task_queued"
  | .taskStarted => "task_started"
  | .taskWaiting .. => "task_waiting"
  | .taskReadyForReview => "task_ready_for_review"
  | .taskCompleted .. => "task_completed"
  | .taskFailed .. => "task_failed"
  | .taskCancelled .. => "task_cancelled"
  | .taskSteered .. => "task_steered"
  | .reviewHunkResolved .. => "review_hunk_resolved"
  | .reviewCommentAdded .. => "review_comment_added"
  | .runStarted .. => "run_started"
  | .runCompleted => "run_completed"
  | .runCostRecorded .. => "run_cost_recorded"
  | .runFailed .. => "run_failed"
  | .turnPrepared .. => "turn_prepared"
  | .turnCompleted => "turn_completed"
  | .turnFailed .. => "turn_failed"
  | .runStepPrepared .. => "run_step_prepared"
  | .runStepCompleted => "run_step_completed"
  | .runStepFailed .. => "run_step_failed"
  | .compactionApplied .. => "compaction_applied"
  | .conversationCheckpointed .. => "conversation_checkpointed"
  | .toolOutputChunk .. => "tool_output_chunk"
  | .worktreeCheckpointed .. => "worktree_checkpointed"
  | .sessionForked .. => "session_forked"
  | .sessionRewound .. => "session_rewound"
  | .goalSet .. => "goal_set"
  | .taskInputQueued .. => "task_input_queued"
  | .sideQuestionAsked .. => "side_question_asked"
  | .indexUpdated .. => "index_updated"

end Modbit
