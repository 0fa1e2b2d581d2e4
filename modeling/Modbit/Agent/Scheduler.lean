import Modbit.EventStore.System
import Modbit.EventStore.TaskStreams

/-!
# The scheduler

`crates/core-runtime/src/scheduler.rs`.  A call of `run_task` or `resume_task` reads the task,
looks whether it has a run, claims the task, prepares a worktree and a lease, starts a run attempt,
writes how it went, and gives the claim back.  Each of these is a step of its own, with calls of
other threads, commands and restarts of the process in between.

The poller is one thread.  When the process starts it resumes the tasks that are `running` in the
projection; then it reads the log from its beginning and calls `run_task` for every `task_started`.
A call that fails is answered with `FailTask`.

`attempts` is the history of the attempts, with the state their task folded to when they started.
A call that has returned keeps its place in `calls`.
-/

namespace Modbit

open Lib

inductive RunError where
  | malformed (taskId : String)
  | store (e : StoreError)
  | noTaskCreated (taskId : TaskId)
  | preparation (message : String)
  | rejected (reason : Reason)
  deriving DecidableEq

inductive Origin where
  | direct
  | boot
  | tail
  deriving DecidableEq

inductive Phase where
  | checked
  | claimed
  /-- With the session lease, where it was acquired. -/
  | prepared (lease : Option String)
  | running
  | ended (result : Except RunError Unit)
  | returned
  deriving DecidableEq

/-- One call of `run_task_inner`. -/
structure RunCall where
  taskId : TaskId
  sessionId : SessionId
  resume : Bool
  origin : Origin
  phase : Phase

structure Attempt where
  taskId : TaskId
  resume : Bool
  /-- What the task folded to. -/
  state : Option TaskState
  deriving DecidableEq

/-- The poller: tasks still to be resumed (`none` before the scan), events of its page still to be
handled, how far it has read, and the task it has to fail. -/
structure Poller where
  boot : Option (List String)
  page : List String
  offset : Nat
  failing : Option (TaskId × RunError)

structure Scheduler where
  db : Db
  inFlight : List String
  calls : List RunCall
  poller : Poller
  attempts : List Attempt

/-! ### What a call reads -/

def readTaskBrief (db : Db) (taskId : TaskId) : Except RunError SessionId :=
  match load db taskId.toText with
  | .error e => .error (.store e)
  | .ok events =>
    okOr (events.findSome? (fun e => match e.payload with
      | .taskCreated sessionId _ _ _ _ _ => some sessionId
      | _ => none)) (.noTaskCreated taskId)

def startsRun (taskId : TaskId) : DomainEvent → Bool
  | .runStarted t _ => t = taskId
  | _ => false

/-- `WHERE aggregate_type = 'run' AND sequence = 1`, and then the first event of each. -/
def taskHasRun (db : Db) (taskId : TaskId) : Bool :=
  (db.events.filter (fun r => r.aggregateType = "run" && r.sequence = 1)).any
    (fun r => match load db r.aggregateId with
      | .ok (e :: _) => startsRun taskId e.payload
      | _ => false)

/-- `SELECT task_id FROM tasks WHERE state = 'running'`. -/
def interruptedTasks (db : Db) : List String :=
  (db.projections.tasks.filter (fun t => t.state = "running")).map TaskRow.taskId

/-- The `RunStarted` event of an attempt. -/
def runStartedEnvelope (stamp : Stamp) (runId : RunId) (sessionId : SessionId) (taskId : TaskId) :
    EventEnvelope :=
  { envelopeFor stamp .run runId.toText sessionId (.runStarted taskId 1) with
    runId := some runId, sequence := 1, actor := ⟨.system, "scheduler"⟩ }.sealed

inductive RunOutcome where
  /-- Cancelled or paused. -/
  | stopped
  | completed
  | exhausted (message : String)
  | errored (cancelled : Bool)

def RunOutcome.payload (taskId : TaskId) : RunOutcome → Option CommandPayload
  | .stopped => none
  | .completed => some (.taskReadyForReview taskId)
  | .exhausted message => some (.failTask taskId "run_exhausted" message)
  | .errored true => none
  | .errored false => some (.taskWaiting taskId .provider)

/-- `execute` of the scheduler: a rejection is an error. -/
def executed : Except StoreError Outcome → Except RunError Unit
  | .ok (.rejected reason) => .error (.rejected reason)
  | .ok _ => .ok ()
  | .error e => .error (.store e)

def Poller.start : Poller := ⟨none, [], 0, none⟩

namespace Scheduler

def fresh : Scheduler := ⟨.empty, [], [], .start, []⟩

/-- A call that is not back yet was made by the poller, or it has a task to fail. -/
def busy (s : Scheduler) : Bool :=
  s.calls.any (fun c => c.origin ≠ .direct && c.phase ≠ .returned) || s.poller.failing.isSome

/-- What a call that ends with `result` leaves the poller to do. -/
def afterReturn (s : Scheduler) (origin : Origin) (taskId : Option TaskId)
    (result : Except RunError Unit) : Scheduler :=
  match origin, taskId, result with
  | .tail, some t, .error e => { s with poller := { s.poller with failing := some (t, e) } }
  | _, _, _ => s

/-- The start of `run_task_inner`, up to the check for an earlier run. -/
def enter (s : Scheduler) (taskId : String) (resume : Bool) (origin : Origin) : Scheduler :=
  match (Id.parse taskId : Option TaskId) with
  | none => s.afterReturn origin none (.error (.malformed taskId))
  | some t =>
    match readTaskBrief s.db t with
    | .error e => s.afterReturn origin (some t) (.error e)
    | .ok sessionId =>
      if !resume && taskHasRun s.db t then s.afterReturn origin (some t) (.ok ())
      else { s with calls := s.calls ++ [⟨t, sessionId, resume, origin, .checked⟩] }

def setPhase (s : Scheduler) (i : Nat) (phase : Phase) : Scheduler :=
  { s with calls := s.calls.modify i (fun c => { c with phase := phase }) }

def store (s : Scheduler) (op : Op) : Scheduler := { s with db := (Modbit.step s.db op).1 }

inductive Move where
  /-- Any other call on the store. -/
  | op (op : Op)
  /-- A direct call. -/
  | call (taskId : String) (resume : Bool)
  /-- The scan, or the next task of it. -/
  | boot
  | poll
  | handle
  /-- The message is the text of the error. -/
  | failTask (commandId message : String) (o : Oracle)
  | claim (i : Nat)
  /-- The worktree and the lease; the lease may not be acquired. -/
  | prepare (i : Nat) (result : Except String (Option (String × String)))
  | start (i : Nat) (runId : RunId) (stamp : Stamp)
  | finish (i : Nat) (outcome : RunOutcome) (commandId : String) (o : Oracle)
  | release (i : Nat)
  | restart

def failCommand (commandId message : String) (taskId : TaskId) : Command :=
  ⟨commandId, ⟨.system, "scheduler"⟩, .failTask taskId "run_allocation_failed" message⟩

/-- The ids of the `task_started` events of a page. -/
def startedIds (events : List EventEnvelope) : List String :=
  (events.filter (fun e => e.eventType = "task_started")).map EventEnvelope.aggregateId

def poll (s : Scheduler) : Scheduler :=
  match eventsSinceGlobal s.db s.poller.offset 100 with
  | .error _ => s
  | .ok (events, offset) =>
    { s with poller := { s.poller with page := startedIds events, offset := offset } }

def claim (s : Scheduler) (i : Nat) (c : RunCall) : Scheduler :=
  if c.taskId.toText ∈ s.inFlight then
    (s.setPhase i .returned).afterReturn c.origin (some c.taskId) (.ok ())
  else { s.setPhase i .claimed with inFlight := c.taskId.toText :: s.inFlight }

def prepare (s : Scheduler) (i : Nat) (c : RunCall) :
    Except String (Option (String × String)) → Scheduler
  | .error message => s.setPhase i (.ended (.error (.preparation message)))
  | .ok none => s.setPhase i (.prepared none)
  | .ok (some (lease, now)) =>
    (s.store (.acquireLease c.sessionId.toText lease "modbit-scheduler" now)).setPhase i
      (.prepared (some lease))

/-- The append of `RunStarted`, whose failure is only reported. -/
def startOp (c : RunCall) (lease : Option String) (runId : RunId) (stamp : Stamp) : Op :=
  let events := [runStartedEnvelope stamp runId c.sessionId c.taskId]
  match lease with
  | some lease => .appendWithLease c.sessionId.toText lease events
  | none => .append events

def start (s : Scheduler) (i : Nat) (c : RunCall) (lease : Option String) (runId : RunId)
    (stamp : Stamp) : Scheduler :=
  { (s.store (startOp c lease runId stamp)).setPhase i .running with
    attempts := s.attempts ++ [⟨c.taskId, c.resume, stateOf s.db c.taskId⟩] }

def finish (s : Scheduler) (i : Nat) (c : RunCall) (outcome : RunOutcome) (commandId : String)
    (o : Oracle) : Scheduler :=
  match outcome.payload c.taskId with
  | none => s.setPhase i (.ended (.ok ()))
  | some payload =>
    let command : Command := ⟨commandId, ⟨.system, "scheduler"⟩, payload⟩
    (s.store (.execute command o)).setPhase i (.ended (executed (execute s.db command o).2))

/-- The guard gives the claim back, and the call returns. -/
def release (s : Scheduler) (i : Nat) (c : RunCall) (result : Except RunError Unit) : Scheduler :=
  { (s.setPhase i .returned).afterReturn c.origin (some c.taskId) result with
    inFlight := s.inFlight.filter (fun t => t ≠ c.taskId.toText) }

/-- A move of the `i`-th call, from the phase it is in. -/
def callStep (s : Scheduler) (i : Nat) (c : RunCall) : Move → Scheduler
  | .claim _ => if c.phase = .checked then s.claim i c else s
  | .prepare _ result => if c.phase = .claimed then s.prepare i c result else s
  | .start _ runId stamp =>
    match c.phase with
    | .prepared lease => s.start i c lease runId stamp
    | _ => s
  | .finish _ outcome commandId o =>
    if c.phase = .running then s.finish i c outcome commandId o else s
  | .release _ =>
    match c.phase with
    | .ended result => s.release i c result
    | _ => s
  | _ => s

def pollerStep (s : Scheduler) : Move → Scheduler
  | .boot =>
    match s.poller.boot with
    | none => { s with poller := { s.poller with boot := some (interruptedTasks s.db) } }
    | some [] => s
    | some (id :: rest) =>
      { s with poller := { s.poller with boot := some rest } }.enter id true .boot
  | .poll => if s.poller.boot = some [] ∧ s.poller.page = [] then s.poll else s
  | .handle =>
    match s.poller.page with
    | [] => s
    | id :: rest => { s with poller := { s.poller with page := rest } }.enter id false .tail
  | _ => s

def atCall (s : Scheduler) (i : Nat) (move : Move) : Scheduler :=
  match s.calls[i]? with
  | none => s
  | some c => s.callStep i c move

/-- One step of the system; moves that are not possible change nothing. -/
def next (s : Scheduler) : Move → Scheduler
  | .op op => s.store op
  | .call id resume => s.enter id resume .direct
  | .failTask commandId message o =>
    match s.poller.failing with
    | none => s
    | some (t, _) =>
      { s.store (.execute (failCommand commandId message t) o) with
        poller := { s.poller with failing := none } }
  | .restart => { s with inFlight := [], calls := [], poller := .start }
  | .boot => if s.busy then s else s.pollerStep .boot
  | .poll => if s.busy then s else s.pollerStep .poll
  | .handle => if s.busy then s else s.pollerStep .handle
  | .claim i => s.atCall i (.claim i)
  | .prepare i result => s.atCall i (.prepare i result)
  | .start i runId stamp => s.atCall i (.start i runId stamp)
  | .finish i outcome commandId o => s.atCall i (.finish i outcome commandId o)
  | .release i => s.atCall i (.release i)

def step (s : Scheduler) (move : Move) : Scheduler × Unit := (s.next move, ())

/-! ### Evaluating a step

What commands and starts write is sealed, so a step can be evaluated without computing a
hash. -/

/-- The append of one event, without the integrity check. -/
def appendSealed (db : Db) (e : EventEnvelope) : Db :=
  if e.sequence ≠ nextSequence db e.aggregateId then db
  else
    match insertEventRow db e.storedRow with
    | .error _ => db
    | .ok inserted =>
      match projectInto inserted e with
      | .error _ => db
      | .ok projected => projected

theorem transact_single {db : Db} {e : EventEnvelope} (hv : e.verifyIntegrity = true) :
    (transact db (appendLoop db [] [e])).1 = appendSealed db e := by
  have hpass : refuseIf (e.verifyIntegrity = false) (StoreError.integrityMismatch e.eventId)
      = .ok () := refuseIf_eq_ok.mpr (by simp [hv])
  rw [appendLoop, List.lookup_nil, Option.getD_none, insertEvent, hpass, ok_bind, appendSealed]
  by_cases hseq : e.sequence = nextSequence db e.aggregateId
  · have hnext : refuseIf (e.sequence ≠ nextSequence db e.aggregateId)
        (StoreError.sequenceConflict e.aggregateId e.sequence (nextSequence db e.aggregateId))
        = .ok () := refuseIf_eq_ok.mpr (not_not.mpr hseq)
    rw [hnext, ok_bind, if_neg (not_not.mpr hseq)]
    cases insertEventRow db e.storedRow with
    | error x => rfl
    | ok inserted =>
      simp only [Except.mapError, ok_bind]
      cases projectInto inserted e with
      | error x => rfl
      | ok projected => rfl
  · rw [refuseIf, if_pos hseq, if_pos hseq]
    rfl

/-- The append of `RunStarted`. -/
def startSealed (db : Db) (c : RunCall) (lease : Option String) (runId : RunId) (stamp : Stamp) :
    Db :=
  if lease.all (Leases.isCurrent db c.sessionId.toText) then
    appendSealed db (runStartedEnvelope stamp runId c.sessionId c.taskId)
  else db

theorem step_startOp_eq (db : Db) (c : RunCall) (lease : Option String) (runId : RunId)
    (stamp : Stamp) :
    (Modbit.step db (startOp c lease runId stamp)).1 = startSealed db c lease runId stamp := by
  have hsingle : (transact db
      (appendLoop db [] [runStartedEnvelope stamp runId c.sessionId c.taskId])).1
      = appendSealed db (runStartedEnvelope stamp runId c.sessionId c.taskId) :=
    transact_single (EventEnvelope.verifyIntegrity_sealed _)
  cases lease with
  | none =>
    change (append db [runStartedEnvelope stamp runId c.sessionId c.taskId]).1 = _
    rw [append, if_neg (List.cons_ne_nil _ _), hsingle]
    rfl
  | some lease =>
    change (appendWithLease db c.sessionId.toText lease
      [runStartedEnvelope stamp runId c.sessionId c.taskId]).1 = _
    rw [appendWithLease, if_neg (List.cons_ne_nil _ _), startSealed, Option.all_some]
    cases Leases.isCurrent db c.sessionId.toText lease with
    | false => rfl
    | true => exact hsingle

def evalNext (s : Scheduler) : Move → Scheduler
  | .op (.execute command o) => { s with db := (evalCall s.db (command, o)).1 }
  | .start i runId stamp =>
    match s.calls[i]? with
    | none => s
    | some c =>
      match c.phase with
      | .prepared lease =>
        { s.setPhase i .running with
          db := startSealed s.db c lease runId stamp
          attempts := s.attempts ++ [⟨c.taskId, c.resume, stateOf s.db c.taskId⟩] }
      | _ => s
  | .finish i outcome commandId o =>
    match s.calls[i]? with
    | none => s
    | some c =>
      if c.phase = .running then
        match outcome.payload c.taskId with
        | none => s.setPhase i (.ended (.ok ()))
        | some payload =>
          let r := evalCall s.db (⟨commandId, ⟨.system, "scheduler"⟩, payload⟩, o)
          { s.setPhase i (.ended (executed r.2)) with db := r.1 }
      else s
  | move => s.next move

def evalStep (s : Scheduler) (move : Move) : Scheduler × Unit := (s.evalNext move, ())

theorem next_eq_evalNext (s : Scheduler) (move : Move) : s.next move = s.evalNext move := by
  unfold evalNext
  split
  · next command o =>
    change s.store (.execute command o) = _
    rw [store, ← execute_eq_evalCall]
    rfl
  · next i runId stamp =>
    rw [next, atCall]
    split
    · rfl
    · next c _ =>
      simp only [callStep]
      split
      · next lease _ =>
        rw [start, store, step_startOp_eq]
        rfl
      · rfl
  · next i outcome commandId o =>
    rw [next, atCall]
    split
    · rfl
    · next c _ =>
      simp only [callStep, finish]
      split
      · split
        · rfl
        · next payload _ =>
          simp only [← execute_eq_evalCall]
          rfl
      · rfl
  · rfl

theorem step_eq_evalStep : step = evalStep := by
  funext s move
  rw [step, evalStep, next_eq_evalNext]

end Scheduler

end Modbit
