import Modbit.Domain.Events

/-!
# Commands

`crates/domain/src/commands.rs`: the seventeen mutating commands, the aggregate
each targets and its name.
-/

namespace Modbit

inductive CommandPayload where
  | createSession (displayName : String)
  | createTask (sessionId : SessionId) (title prompt : String)
      (repoId baseBranch parentTaskId : Option String)
  | queueTask (taskId : TaskId)
  | startTask (taskId : TaskId)
  | taskWaiting (taskId : TaskId) (reason : WaitingReason)
  | taskReadyForReview (taskId : TaskId)
  | completeTask (taskId : TaskId) (summary : String) (hostVerified : Bool)
  | failTask (taskId : TaskId) (failureCode message : String)
  | cancelTask (taskId : TaskId) (reason : String)
  | steerTask (taskId : TaskId) (steerNote : String)
  | forkSession (sourceSession : SessionId) (atSequence : Nat)
      (carriedDecisions carriedEvidenceRefs : List String)
  | rewindSession (sessionId : SessionId) (toSequence : Nat) (expectedLastHash : String)
  | setGoal (taskId : TaskId) (objective : String) (acceptanceCriteria : List String)
  | queueTaskInput (taskId : TaskId) (inputId : String) (mode : InputMode) (text : String)
  | askSideQuestion (sessionId : SessionId) (questionId question : String)
      (contextEventCount : Nat)
  | resolveReviewHunk (taskId : TaskId) (path : String) (newStart : Nat) (accepted : Bool)
      (revision : String)
  | addReviewComment (taskId : TaskId) (path : String) (newStart : Nat) (body revision : String)
deriving DecidableEq

structure Command where
  commandId : String
  actor : Actor
  payload : CommandPayload
deriving DecidableEq

namespace CommandPayload

/-- The aggregate the command targets, when it targets an existing one. -/
def targetAggregate : CommandPayload → Option String
  | queueTask taskId => some taskId.toText
  | startTask taskId => some taskId.toText
  | taskWaiting taskId _ => some taskId.toText
  | taskReadyForReview taskId => some taskId.toText
  | completeTask taskId _ _ => some taskId.toText
  | failTask taskId _ _ => some taskId.toText
  | cancelTask taskId _ => some taskId.toText
  | steerTask taskId _ => some taskId.toText
  | forkSession sourceSession _ _ _ => some sourceSession.toText
  | rewindSession sessionId _ _ => some sessionId.toText
  | queueTaskInput taskId _ _ _ => some taskId.toText
  | setGoal taskId _ _ => some taskId.toText
  | resolveReviewHunk taskId _ _ _ _ => some taskId.toText
  | addReviewComment taskId _ _ _ _ => some taskId.toText
  | askSideQuestion sessionId _ _ _ => some sessionId.toText
  | createSession _ => none
  | createTask _ _ _ _ _ _ => none

def kind : CommandPayload → String
  | setGoal .. => "set_goal"
  | queueTaskInput .. => "queue_task_input"
  | askSideQuestion .. => "ask_side_question"
  | forkSession .. => "fork_session"
  | rewindSession .. => "rewind_session"
  | createSession .. => "create_session"
  | createTask .. => "create_task"
  | queueTask .. => "queue_task"
  | startTask .. => "start_task"
  | taskWaiting .. => "task_waiting"
  | taskReadyForReview .. => "task_ready_for_review"
  | completeTask .. => "complete_task"
  | failTask .. => "fail_task"
  | cancelTask .. => "cancel_task"
  | steerTask .. => "steer_task"
  | resolveReviewHunk .. => "resolve_review_hunk"
  | addReviewComment .. => "add_review_comment"

end CommandPayload

end Modbit
