import Modbit.EventStore.Schema
import Modbit.Lib.Replay

/-!
# Projections

`project` of `crates/event-store/src/projections.rs`: one committed event applied
to the rows of `sessions`, `tasks` and `task_inputs`, with their `PRIMARY KEY`,
`UNIQUE` and `REFERENCES` constraints.  At most one statement of an event can
fail, and it is an insert, so a refused event leaves the rows as they were.

`Projectable` says in terms of the rows when an event goes through, and
`project_ok_iff` that this is exactly when `project` succeeds.  `project_keys`
says what a projected event adds to the keys of the three tables.
-/

namespace Modbit

open Lib

/-! ### Statements -/

namespace Projections

def sessionIds (p : Projections) : List String := p.sessions.map SessionRow.sessionId

def taskIds (p : Projections) : List String := p.tasks.map TaskRow.taskId

def inputIds (p : Projections) : List String := p.taskInputs.map TaskInputRow.inputId

def insertSession (p : Projections) (row : SessionRow) : Except SqliteError Projections :=
  if row.sessionId ∈ p.sessionIds then .error (.unique "sessions.session_id")
  else .ok { p with sessions := p.sessions ++ [row] }

def insertTask (p : Projections) (row : TaskRow) : Except SqliteError Projections :=
  if row.taskId ∈ p.taskIds then .error (.unique "tasks.task_id")
  else if row.sessionId ∉ p.sessionIds then .error .foreignKey
  else .ok { p with tasks := p.tasks ++ [row] }

def insertTaskInput (p : Projections) (row : TaskInputRow) : Except SqliteError Projections :=
  if row.inputId ∈ p.inputIds then .error (.unique "task_inputs.input_id")
  else if (row.taskId, row.sequence) ∈ p.taskInputs.map (fun r => (r.taskId, r.sequence)) then
    .error (.unique "task_inputs.task_id, task_inputs.sequence")
  else if row.taskId ∉ p.taskIds then .error .foreignKey
  else .ok { p with taskInputs := p.taskInputs ++ [row] }

/-- `UPDATE tasks SET … WHERE task_id = ?1`. -/
def updateTask (p : Projections) (taskId : String) (set : TaskRow → TaskRow) : Projections :=
  { p with tasks := p.tasks.map (fun r => if r.taskId = taskId then set r else r) }

end Projections

open Projections

/-! ### Projecting one event -/

def toLowercase (s : String) : String := String.ofList (s.toList.map Char.toLower)

/-- The text `project` writes for a waiting task. -/
def waitingState (reason : WaitingReason) : String := toLowercase ("waiting_" ++ reason.debug)

def taskState (p : Projections) (e : EventEnvelope) (state : String) : Projections :=
  p.updateTask e.aggregateId (fun r => { r with state := state, generation := e.sequence })

def taskStateWithCompletion (p : Projections) (e : EventEnvelope) (state : String) : Projections :=
  p.updateTask e.aggregateId (fun r =>
    { r with state := state, completedAt := some e.occurredAt, generation := e.sequence })

def projectSession (p : Projections) (e : EventEnvelope) : Except SqliteError Projections :=
  match e.payload with
  | .sessionCreated _ =>
    p.insertSession
      { sessionId := e.aggregateId, state := "active", generation := e.sequence,
        createdAt := e.occurredAt, updatedAt := e.occurredAt, lastEventSequence := e.sequence }
  | _ => .ok p

def projectTask (p : Projections) (e : EventEnvelope) : Except SqliteError Projections :=
  match e.payload with
  | .taskCreated _ title prompt _ _ parentTaskId =>
    p.insertTask
      { taskId := e.aggregateId, sessionId := e.sessionId.toText,
        goalText := title ++ "\n" ++ prompt, state := "created", generation := e.sequence,
        createdAt := e.occurredAt, startedAt := none, completedAt := none, failureCode := none,
        parentTaskId := parentTaskId }
  | .taskQueued => .ok (taskState p e "queued")
  | .taskStarted =>
    let p' := p.updateTask e.aggregateId (fun r =>
      { r with state := "running", startedAt := some (r.startedAt.getD e.occurredAt),
               generation := e.sequence })
    if e.aggregateId ∈ p.taskIds then .ok p' else .ok (taskState p' e "running")
  | .taskWaiting reason =>
    .ok (p.updateTask e.aggregateId (fun r =>
      { r with state := waitingState reason, generation := e.sequence }))
  | .taskReadyForReview => .ok (taskState p e "ready_for_review")
  | .taskCompleted _ => .ok (taskStateWithCompletion p e "completed")
  | .taskFailed failureCode _ =>
    .ok ((taskStateWithCompletion p e "failed").updateTask e.aggregateId (fun r =>
      { r with failureCode := some failureCode }))
  | .taskCancelled _ => .ok (taskStateWithCompletion p e "cancelled")
  | .taskSteered _ =>
    .ok (p.updateTask e.aggregateId (fun r => { r with generation := e.sequence }))
  | .taskInputQueued inputId mode text =>
    p.insertTaskInput
      { inputId := inputId, taskId := e.aggregateId, mode := mode.asStr, text := text,
        sequence := e.sequence, state := "pending" }
  | _ => .ok p

def project (p : Projections) (e : EventEnvelope) : Except SqliteError Projections :=
  match e.aggregateType with
  | .session => projectSession p e
  | .task => projectTask p e
  | .run | .turn | .runStep => .ok p

/-! ### When an event goes through -/

def Projectable (p : Projections) (e : EventEnvelope) : Prop :=
  match e.aggregateType, e.payload with
  | .session, .sessionCreated _ => e.aggregateId ∉ p.sessionIds
  | .task, .taskCreated _ _ _ _ _ _ => e.aggregateId ∉ p.taskIds ∧ e.sessionId.toText ∈ p.sessionIds
  | .task, .taskInputQueued inputId _ _ =>
    inputId ∉ p.inputIds
      ∧ (e.aggregateId, e.sequence) ∉ p.taskInputs.map (fun r => (r.taskId, r.sequence))
      ∧ e.aggregateId ∈ p.taskIds
  | _, _ => True

variable {p p' : Projections} {e : EventEnvelope}

theorem insertSession_ok_iff {row : SessionRow} :
    p.insertSession row = .ok p' ↔
      row.sessionId ∉ p.sessionIds ∧ p' = { p with sessions := p.sessions ++ [row] } := by
  rw [insertSession]
  split <;> simp_all [eq_comm]

theorem insertTask_ok_iff {row : TaskRow} :
    p.insertTask row = .ok p' ↔
      (row.taskId ∉ p.taskIds ∧ row.sessionId ∈ p.sessionIds)
        ∧ p' = { p with tasks := p.tasks ++ [row] } := by
  rw [insertTask]
  split
  · simp_all
  · split <;> simp_all [eq_comm]

theorem insertTaskInput_ok_iff {row : TaskInputRow} :
    p.insertTaskInput row = .ok p' ↔
      (row.inputId ∉ p.inputIds
        ∧ (row.taskId, row.sequence) ∉ p.taskInputs.map (fun r => (r.taskId, r.sequence))
        ∧ row.taskId ∈ p.taskIds)
        ∧ p' = { p with taskInputs := p.taskInputs ++ [row] } := by
  rw [insertTaskInput]
  split
  · simp_all
  · split
    · simp_all
    · split <;> simp_all [eq_comm]

/-- **An event is projected exactly when it meets its constraints.** -/
theorem project_ok_iff : (∃ p', project p e = .ok p') ↔ Projectable p e := by
  unfold project Projectable projectSession projectTask
  cases e.aggregateType <;> cases e.payload <;>
    simp [insertSession_ok_iff, insertTask_ok_iff, insertTaskInput_ok_iff]
  case task.taskStarted => split <;> simp

theorem project_error (h : ¬ Projectable p e) : ∃ x, project p e = .error x := by
  cases hp : project p e with
  | error x => exact ⟨x, rfl⟩
  | ok p' => exact absurd (project_ok_iff.mp ⟨p', hp⟩) h

/-! ### What it does to the keys -/

/-- The `sessions` key an event adds. -/
def createdSession (e : EventEnvelope) : List String :=
  match e.aggregateType, e.payload with
  | .session, .sessionCreated _ => [e.aggregateId]
  | _, _ => []

/-- The `tasks` key an event adds. -/
def createdTask (e : EventEnvelope) : List String :=
  match e.aggregateType, e.payload with
  | .task, .taskCreated _ _ _ _ _ _ => [e.aggregateId]
  | _, _ => []

/-- The `task_inputs` row an event adds. -/
def queuedInput (e : EventEnvelope) : List TaskInputRow :=
  match e.aggregateType, e.payload with
  | .task, .taskInputQueued inputId mode text =>
    [{ inputId := inputId, taskId := e.aggregateId, mode := mode.asStr, text := text,
       sequence := e.sequence, state := "pending" }]
  | _, _ => []

section Updates

variable (taskId state : String) {set : TaskRow → TaskRow}

@[simp] theorem sessionIds_updateTask : (p.updateTask taskId set).sessionIds = p.sessionIds := rfl

@[simp] theorem taskInputs_updateTask : (p.updateTask taskId set).taskInputs = p.taskInputs := rfl

@[simp] theorem taskIds_updateTask (h : ∀ r, (set r).taskId = r.taskId) :
    (p.updateTask taskId set).taskIds = p.taskIds := by
  simp only [taskIds, updateTask, List.map_map]
  refine List.map_congr_left (fun r _ => ?_)
  simp only [Function.comp]
  split
  · exact h r
  · rfl

end Updates

/-- **A projected event adds its own keys and no others.** -/
theorem project_keys (h : project p e = .ok p') :
    p'.sessionIds = p.sessionIds ++ createdSession e ∧ p'.taskIds = p.taskIds ++ createdTask e ∧
      p'.taskInputs = p.taskInputs ++ queuedInput e := by
  unfold project projectSession projectTask at h
  unfold createdSession createdTask queuedInput
  cases ht : e.aggregateType <;> cases hp : e.payload <;>
    simp only [ht, hp, insertSession_ok_iff, insertTask_ok_iff, insertTaskInput_ok_iff,
      Except.ok.injEq] at h
  case task.taskStarted =>
    split at h
    all_goals
      cases h
      simp [taskState]
  case task.taskCreated => obtain ⟨_, rfl⟩ := h; simp [sessionIds, taskIds]
  case task.taskInputQueued => obtain ⟨_, rfl⟩ := h; simp [sessionIds, taskIds]
  case session.sessionCreated => obtain ⟨_, rfl⟩ := h; simp [sessionIds, taskIds]
  all_goals
    cases h
    simp [taskState, taskStateWithCompletion]

end Modbit
