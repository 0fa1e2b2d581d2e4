import Modbit.Domain.Commands
import Modbit.EventStore.Store

/-!
# Command processing

`crates/event-store/src/commands.rs`.  A command is planned against the log into
at most two sealed envelopes, the plan is checked for continuity, and the
envelopes are inserted and projected one by one.  The identities and times a call
draws are an argument, the `Oracle`.

`commitLoop` carries the transaction along also when it stops: `execute` commits
it in both cases, with a row of `command_log` that says which it was.
-/

namespace Modbit

open Lib

/-- What `envelope_for` draws. -/
structure Stamp where
  eventId : Uuid
  occurredAt : String
deriving DecidableEq

/-- What one call draws: an identity for a new aggregate, a stamp for each
envelope, and the time written to the command log. -/
structure Oracle where
  aggregate : Uuid
  first : Stamp
  second : Stamp
  processedAt : String
deriving DecidableEq

/-! ### Reading the log -/

/-- `session_exists`. -/
def sessionExists (tx : Db) (sessionId : SessionId) : Bool := 0 < countEvents tx sessionId.toText

def taskExists (tx : Db) (taskId : TaskId) : Bool := 0 < countEvents tx taskId.toText

def goalStreamLen (tx : Db) (taskId : TaskId) : Nat := countEvents tx taskId.toText

/-- `WHERE aggregate_type = 'session' AND aggregate_id = ?1`. -/
def selectSession (tx : Db) (sessionId : String) : List EventRow :=
  (EventRow.streamOf sessionId tx.events).filter (fun r => r.aggregateType = "session")

def sessionSequence (tx : Db) (sessionId : String) : Nat :=
  ((selectSession tx sessionId).map EventRow.sequence).max?.getD 0

def sourceStreamLen (tx : Db) (sessionId : String) : Nat := (selectSession tx sessionId).length

def loadTaskEvents (tx : Db) (taskId : TaskId) : Except Reason (List DomainEvent) :=
  (selectAggregate tx taskId.toText).mapM
    (fun r => okOr (DomainEvent.fromJson r.payloadInline) .serde)

def loadSessionEnvelopes (tx : Db) (sessionId : String) : Except Reason (List EventEnvelope) :=
  (selectAggregate tx sessionId).mapM
    (fun r => okOr (EventEnvelope.fromJson r.payloadInline) .serde)

def noTask (taskId : TaskId) : Reason := .message ("task " ++ taskId.toText ++ " does not exist")

def noSession (sessionId : SessionId) : Reason :=
  .message ("session " ++ sessionId.toText ++ " does not exist")

def taskSession (tx : Db) (taskId : TaskId) : Except Reason SessionId := do
  let row ← okOr (selectAggregate tx taskId.toText).head? (noTask taskId)
  okOr (Id.parse row.sessionId) .uuid

def currentState (taskId : TaskId) (history : List DomainEvent) : Except Reason TaskState := do
  let folded ← okOr (foldTask history) (noTask taskId)
  folded.mapError (fun e => .message e.display)

/-! ### Planning -/

def envelopeFor (stamp : Stamp) (aggregateType : AggregateType) (aggregateId : String)
    (sessionId : SessionId) (payload : DomainEvent) : EventEnvelope where
  eventId := stamp.eventId.toText
  sessionId := sessionId
  taskId := none
  runId := none
  turnId := none
  stepId := none
  aggregateType := aggregateType
  aggregateId := aggregateId
  sequence := 0
  eventType := eventTypeOf payload
  schemaVersion := SCHEMA_VERSION
  occurredAt := stamp.occurredAt
  actor := ⟨.system, "core"⟩
  causationId := none
  correlationId := none
  payload := payload
  payloadObjectHash := none
  integrityHash := ""

/-- An envelope of a session aggregate, numbered and sealed. -/
def sessionEnvelope (stamp : Stamp) (sessionId : SessionId) (payload : DomainEvent)
    (sequence : Nat) : EventEnvelope :=
  { envelopeFor stamp .session sessionId.toText sessionId payload with sequence := sequence }.sealed

/-- An envelope of a task aggregate, numbered and sealed. -/
def taskEnvelope (stamp : Stamp) (taskId : TaskId) (sessionId : SessionId) (payload : DomainEvent)
    (sequence : Nat) : EventEnvelope :=
  { envelopeFor stamp .task taskId.toText sessionId payload with
    taskId := some taskId, sequence := sequence }.sealed

/-- `lifecycle_event`; the commands of its `unreachable!` arm have none. -/
def lifecycleEvent : CommandPayload → Option DomainEvent
  | .queueTask _ => some .taskQueued
  | .startTask _ => some .taskStarted
  | .taskWaiting _ reason => some (.taskWaiting reason)
  | .taskReadyForReview _ => some .taskReadyForReview
  | .completeTask _ summary _ => some (.taskCompleted summary)
  | .failTask _ failureCode message => some (.taskFailed failureCode message)
  | .cancelTask _ reason => some (.taskCancelled reason)
  | .steerTask _ steerNote => some (.taskSteered steerNote)
  | .resolveReviewHunk _ path newStart accepted revision =>
    some (.reviewHunkResolved path newStart accepted revision)
  | .addReviewComment _ path newStart body revision =>
    some (.reviewCommentAdded path newStart body revision)
  | _ => none

def isGoalSet : DomainEvent → Bool
  | .goalSet _ _ => true
  | _ => false

/-- A completion the model claims without host verification. -/
def selfCertified : CommandPayload → Bool
  | .completeTask _ _ false => true
  | _ => false

/-- The last arm of the planner: the commands that move one task. -/
def planLifecycle (tx : Db) (o : Oracle) (payload : CommandPayload) :
    Except Reason (List EventEnvelope) := do
  let aggregate ← okOr payload.targetAggregate (.message "lifecycle commands target a task")
  let taskId : TaskId ← okOr (Id.parse aggregate) .uuid
  let history ← loadTaskEvents tx taskId
  let current ← currentState taskId history
  refuseIf (selfCertified payload = true ∧ history.any isGoalSet = true)
    (.message ("goal mode: completion requires host-verified acceptance criteria;"
      ++ "                              the model cannot self-certify"))
  let event ← okOr (lifecycleEvent payload) .unreachable
  let _ ← (applyTaskEvent current event).mapError (fun e => .message e.display)
  let sessionId ← taskSession tx taskId
  return [taskEnvelope o.first taskId sessionId event (history.length + 1)]

/-- The envelopes a command appends, or why it is rejected. -/
def plan (tx : Db) (o : Oracle) : CommandPayload → Except Reason (List EventEnvelope)
  | .createSession displayName =>
    .ok [sessionEnvelope o.first ⟨o.aggregate⟩ (.sessionCreated displayName) 1]
  | .createTask sessionId title prompt repoId baseBranch parentTaskId => do
    refuseIf (sessionExists tx sessionId = false) (noSession sessionId)
    return [taskEnvelope o.first ⟨o.aggregate⟩ sessionId
      (.taskCreated sessionId title prompt repoId baseBranch parentTaskId) 1]
  | .queueTaskInput taskId inputId mode text => do
    let history ← loadTaskEvents tx taskId
    let current ← currentState taskId history
    let effect ← (inputEffect current mode).mapError .message
    let sessionId ← taskSession tx taskId
    let input := taskEnvelope o.first taskId sessionId (.taskInputQueued inputId mode text)
      (history.length + 1)
    let steered := taskEnvelope o.second taskId sessionId (.taskSteered text) (history.length + 2)
    return if effect = .redirectsTask then [input, steered] else [input]
  | .askSideQuestion sessionId questionId question contextEventCount => do
    refuseIf (sessionExists tx sessionId = false) (noSession sessionId)
    return [sessionEnvelope o.first sessionId
      (.sideQuestionAsked questionId question contextEventCount)
      (sessionSequence tx sessionId.toText + 1)]
  | .setGoal taskId objective acceptanceCriteria => do
    refuseIf (taskExists tx taskId = false) (noTask taskId)
    let sessionId ← taskSession tx taskId
    return [taskEnvelope o.first taskId sessionId (.goalSet objective acceptanceCriteria)
      (goalStreamLen tx taskId + 1)]
  | .forkSession sourceSession atSequence carriedDecisions carriedEvidenceRefs => do
    let sourceLen := sourceStreamLen tx sourceSession.toText
    refuseIf (atSequence = 0 ∨ atSequence > sourceLen)
      (.message ("cannot fork " ++ sourceSession.toText ++ " at sequence " ++ toString atSequence
        ++ " (stream has " ++ toString sourceLen ++ " events)"))
    return [sessionEnvelope o.first ⟨o.aggregate⟩
      (.sessionForked sourceSession atSequence carriedDecisions carriedEvidenceRefs) 1]
  | .rewindSession sessionId toSequence expectedLastHash => do
    let stream ← loadSessionEnvelopes tx sessionId.toText
    let last ← okOr stream.getLast? (.message ("session " ++ sessionId.toText ++ " has no events"))
    refuseIf (last.integrityHash ≠ expectedLastHash)
      (.message ("rewind rejected: stream ends with hash " ++ last.integrityHash
        ++ ", caller expected " ++ expectedLastHash))
    refuseIf (toSequence = 0 ∨ toSequence ≥ last.sequence)
      (.message ("cannot rewind session " ++ sessionId.toText ++ " to sequence "
        ++ toString toSequence ++ " (stream ends at " ++ toString last.sequence ++ ")"))
    return [sessionEnvelope o.first sessionId
      (.sessionRewound toSequence (last.sequence - toSequence) last.integrityHash)
      (last.sequence + 1)]
  | payload => planLifecycle tx o payload

/-- The continuity check; `nextExpected` follows the events staged so far. -/
def continuity (tx : Db) (nextExpected : List (String × Nat)) :
    List EventEnvelope → Except Reason Unit
  | [] => .ok ()
  | e :: es => do
    let expected := (nextExpected.lookup e.aggregateId).getD (nextSequence tx e.aggregateId)
    refuseIf (e.sequence ≠ expected)
      (.message ("sequence conflict on " ++ e.aggregateId ++ ": expected " ++ toString expected
        ++ ", got " ++ toString e.sequence))
    continuity tx ((e.aggregateId, e.sequence + 1) :: nextExpected) es

/-! ### Executing -/

/-- The row the command path writes, with the version of the running code. -/
def EventEnvelope.commandRow (e : EventEnvelope) : EventRow := e.row SCHEMA_VERSION

/-- Insert and project, one envelope after the other.  The transaction comes back
as it stands, also when the loop stops with a rejection. -/
def commitLoop (tx : Db) : List EventEnvelope → Db × Except Reason (List String)
  | [] => (tx, .ok [])
  | e :: es =>
    if e.verifyIntegrity = false then
      (tx, .error (.message ("integrity mismatch on event " ++ e.eventId)))
    else
      match insertEventRow tx e.commandRow with
      | .error x => (tx, .error (.sqlite x))
      | .ok inserted =>
        match projectInto inserted e with
        | .error x => (inserted, .error (.sqlite x))
        | .ok projected =>
          let rest := commitLoop projected es
          (rest.1, rest.2.map (fun ids => e.eventId :: ids))

def stage (tx : Db) (o : Oracle) (payload : CommandPayload) :
    Except Reason (List EventEnvelope) := do
  let events ← plan tx o payload
  continuity tx [] events
  return events

def planAndAppend (tx : Db) (o : Oracle) (payload : CommandPayload) :
    Db × Except Reason (List String) :=
  match stage tx o payload with
  | .error reason => (tx, .error reason)
  | .ok events => commitLoop tx events

inductive Outcome where
  | applied (eventIds : List String)
  | replayed (eventIds : List String)
  | rejected (reason : Reason)
deriving DecidableEq

def insertCommandLog (tx : Db) (row : CommandLogRow) : Except SqliteError Db :=
  if row.commandId ∈ tx.commandLog.map CommandLogRow.commandId then
    .error (.unique "command_log.command_id")
  else .ok { tx with commandLog := tx.commandLog ++ [row] }

def logRow (command : Command) (o : Oracle) : Except Reason (List String) → CommandLogRow
  | .ok ids =>
    ⟨command.commandId, command.payload.kind, "APPLIED", .ofStrList ids, none, o.processedAt⟩
  | .error reason =>
    ⟨command.commandId, command.payload.kind, "REJECTED", .ofStrList [], some reason,
      o.processedAt⟩

def outcomeOf : Except Reason (List String) → Outcome
  | .ok ids => .applied ids
  | .error reason => .rejected reason

def recordedOutcome (row : CommandLogRow) : Outcome :=
  if row.status = "APPLIED" then .replayed (row.resultEventIds.asStrList.getD [])
  else .rejected (.message "previously rejected (idempotent replay)")

def execute (db : Db) (command : Command) (o : Oracle) : Db × Except StoreError Outcome :=
  match db.commandLog.find? (fun r => r.commandId = command.commandId) with
  | some row => (db, .ok (recordedOutcome row))
  | none =>
    let r := planAndAppend db o command.payload
    match insertCommandLog r.1 (logRow command o r.2) with
    | .error x => (db, .error (.sqlite x))
    | .ok tx => (tx, .ok (outcomeOf r.2))

end Modbit
