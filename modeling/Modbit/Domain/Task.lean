import Modbit.Domain.Events

/-!
# The task state machine and the input policy

`crates/domain/src/task.rs` and `input_queue.rs`.  `applyTaskEvent` is the locked
state machine, `foldTask` folds a stream of events through it, and `inputEffect`
is the second acceptance table, of input modes against states.

`foldTask_concat` is the step rule of the fold: a stream with a state `s` and one
more event has the state the machine gives.  `applyTaskEvent_input` and
`applyTaskEvent_steered` compare the two tables: what `inputEffect` lets through is
accepted by the machine, except a side question on a failed task and a steer of a
queued one (`PolicyGap`).
-/

namespace Modbit

inductive TaskState where
  | created | queued | running | waiting (reason : WaitingReason) | readyForReview
  | completed | failed | cancelled
deriving DecidableEq

/-! ### Names in messages -/

/-- The derived `Debug` name. -/
def WaitingReason.debug : WaitingReason → String
  | .userInput => "UserInput"
  | .approval => "Approval"
  | .capacity => "Capacity"
  | .external => "External"
  | .provider => "Provider"

namespace TaskState

/-- The derived `Debug` text. -/
def debug : TaskState → String
  | created => "Created"
  | queued => "Queued"
  | running => "Running"
  | waiting reason => "Waiting(" ++ reason.debug ++ ")"
  | readyForReview => "ReadyForReview"
  | completed => "Completed"
  | failed => "Failed"
  | cancelled => "Cancelled"

/-- `Display`. -/
def display : TaskState → String
  | waiting reason => "waiting(" ++ reason.debug ++ ")"
  | other => other.debug

end TaskState

structure TransitionError where
  source : TaskState
  event : String
deriving DecidableEq

def TransitionError.display (e : TransitionError) : String :=
  "illegal task transition: " ++ e.source.display ++ " cannot accept " ++ e.event

/-! ### The machine -/

def resumeReasonOf : DomainEvent → WaitingReason
  | .taskWaiting reason => reason
  | _ => .external

def applyTaskEvent (state : TaskState) (event : DomainEvent) :
    Except TransitionError TaskState :=
  match event with
  | .taskQueued =>
    match state with
    | .created => .ok .queued
    | _ => .error ⟨state, "task_queued"⟩
  | .taskStarted =>
    match state with
    | .queued | .waiting _ => .ok .running
    | _ => .error ⟨state, "task_started"⟩
  | .taskWaiting reason =>
    match state with
    | .running => .ok (.waiting (resumeReasonOf (.taskWaiting reason)))
    | _ => .error ⟨state, "task_waiting"⟩
  | .taskReadyForReview =>
    match state with
    | .running | .waiting _ => .ok .readyForReview
    | _ => .error ⟨state, "task_ready_for_review"⟩
  | .taskCompleted _ =>
    match state with
    | .readyForReview => .ok .completed
    | _ => .error ⟨state, "task_completed"⟩
  | .taskFailed _ _ =>
    match state with
    | .running | .waiting _ | .readyForReview => .ok .failed
    | _ => .error ⟨state, "task_failed"⟩
  | .taskCancelled _ =>
    match state with
    | .created | .queued | .running | .waiting _ => .ok .cancelled
    | _ => .error ⟨state, "task_cancelled"⟩
  | .taskSteered _ =>
    match state with
    | .running | .waiting _ => .ok state
    | _ => .error ⟨state, "task_steered"⟩
  | .goalSet _ _ => .ok state
  | .taskInputQueued _ _ _ =>
    match state with
    | .created | .queued | .running | .waiting _ | .readyForReview => .ok state
    | _ => .error ⟨state, "task_input_queued"⟩
  | .reviewHunkResolved _ _ _ _ =>
    match state with
    | .running | .waiting _ | .readyForReview | .completed => .ok state
    | _ => .error ⟨state, "review_hunk_resolved"⟩
  | .reviewCommentAdded _ _ _ _ =>
    match state with
    | .running | .waiting _ | .readyForReview | .completed => .ok state
    | _ => .error ⟨state, "review_comment_added"⟩
  | .taskCreated _ _ _ _ _ _ =>
    match state with
    | .created => .ok .created
    | _ => .error ⟨state, "task_created"⟩
  | _ => .error ⟨state, "non-task event"⟩

/-- One event folded into the state so far, `none` before the first event. -/
def foldStep (state : Option (Except TransitionError TaskState)) (event : DomainEvent) :
    Except TransitionError TaskState :=
  match state with
  | none =>
    match event with
    | .taskCreated _ _ _ _ _ _ => .ok .created
    | _ => .error ⟨.created, "non-creation event first"⟩
  | some (.ok s) => applyTaskEvent s event
  | some (.error e) => .error e

/-- The state of a task event stream, `none` before creation. -/
def foldTask (events : List DomainEvent) : Option (Except TransitionError TaskState) :=
  events.foldl (fun state event => some (foldStep state event)) none

@[simp] theorem foldTask_nil : foldTask [] = none := rfl

theorem foldTask_append_singleton (events : List DomainEvent) (e : DomainEvent) :
    foldTask (events ++ [e]) = some (foldStep (foldTask events) e) := by
  simp [foldTask]

variable {events : List DomainEvent}

/-- **The step rule.**  A stream in state `s` extended by an accepted event is in
the state the machine gives. -/
theorem foldTask_concat {e : DomainEvent} {s s' : TaskState}
    (h : foldTask events = some (.ok s)) (he : applyTaskEvent s e = .ok s') :
    foldTask (events ++ [e]) = some (.ok s') := by
  rw [foldTask_append_singleton, h, foldStep, he]

theorem foldTask_append_error {x : TransitionError}
    (h : foldTask events = some (.error x)) (more : List DomainEvent) :
    foldTask (events ++ more) = some (.error x) := by
  induction more generalizing events with
  | nil => rwa [List.append_nil]
  | cons e more ih =>
    rw [← List.singleton_append, ← List.append_assoc]
    exact ih (by rw [foldTask_append_singleton, h, foldStep])

theorem head_of_foldTask {s : TaskState} (h : foldTask events = some (.ok s)) :
    ∃ sid title prompt repo base parent rest,
      events = .taskCreated sid title prompt repo base parent :: rest := by
  cases events with
  | nil => simp at h
  | cons e rest =>
    cases e
    case taskCreated sid title prompt repo base parent =>
      exact ⟨sid, title, prompt, repo, base, parent, rest, rfl⟩
    all_goals
      rw [← List.singleton_append, foldTask_append_error (x := ⟨.created, _⟩) rfl] at h
      cases h

/-! ### The input policy -/

inductive InputEffect where
  | redirectsTask | queuedAfterCurrent | sessionLevelOnly
deriving DecidableEq

def inputEffect (state : TaskState) (mode : InputMode) : Except String InputEffect :=
  match mode with
  | .steer =>
    match state with
    | .running | .waiting _ | .queued => .ok .redirectsTask
    | other => .error ("steer requires an active task, task is " ++ other.debug
        ++ " (interrupt-and-replace)")
  | .collect =>
    match state with
    | .running | .waiting _ => .ok .queuedAfterCurrent
    | other => .error ("collect requires a running/waiting task, task is " ++ other.debug
        ++ " (coalesce-after-current)")
  | .followUp =>
    match state with
    | .queued | .running | .waiting _ | .readyForReview => .ok .queuedAfterCurrent
    | other => .error ("follow-up requires an open task, task is " ++ other.debug
        ++ " (ordered separate turns)")
  | .sideQuestion =>
    match state with
    | .created | .completed | .cancelled =>
      .error ("side question requires a live task, task is " ++ state.debug)
    | _ => .ok .sessionLevelOnly

/-- The two states in which the policy lets an input through that the machine
refuses. -/
def PolicyGap (state : TaskState) (mode : InputMode) : Prop :=
  (mode = .steer ∧ state = .queued) ∨ (mode = .sideQuestion ∧ state = .failed)

instance (state : TaskState) (mode : InputMode) : Decidable (PolicyGap state mode) :=
  inferInstanceAs (Decidable (_ ∨ _))

variable {state : TaskState} {mode : InputMode}

/-- **The machine accepts the input the policy lets through**, except a side question
on a failed task, and stays in its state. -/
theorem applyTaskEvent_input {effect : InputEffect}
    (h : inputEffect state mode = .ok effect) (hg : ¬ (mode = .sideQuestion ∧ state = .failed))
    (inputId text : String) :
    applyTaskEvent state (.taskInputQueued inputId mode text) = .ok state := by
  cases mode <;> cases state <;> simp_all [inputEffect, applyTaskEvent]

theorem applyTaskEvent_steered
    (h : inputEffect state mode = .ok .redirectsTask) (hq : state ≠ .queued) (text : String) :
    applyTaskEvent state (.taskSteered text) = .ok state := by
  cases mode <;> cases state <;> simp_all [inputEffect, applyTaskEvent]

theorem inputEffect_redirects
    (h : inputEffect state mode = .ok .redirectsTask) : mode = .steer := by
  cases mode <;> cases state <;> simp_all [inputEffect]

end Modbit
