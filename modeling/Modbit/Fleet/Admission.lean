import Modbit.Agent.TaskRows
import Modbit.Fleet.AgentFleet

/-!
# Admitting a child agent

`spawn_agent` of the surface.  The checks run first: the idempotency key is looked up in the
fleet, the parent must be active at the expected generation, and its active children are
counted.  Then the child task is created, its node goes into the fleet, its write scope is
acquired, and it is queued and started.  A failure after the creation is to be compensated: the
scope is released and the task cancelled.

Every call on the store and on the fleet is a phase of its own, and `advance` is one of them;
`spawnAgent` runs a call to its end.  What a phase draws and which of its operations fail is its
`Turn`.
-/

namespace Modbit

open Lib WriteScopes

namespace Fleet

/-! ### Requests and answers -/

structure SpawnAgentCommand where
  parentTaskId : String
  objective : String
  writeScope : String
  idempotencyKey : String
  parentGeneration : Nat

inductive TaskStatus where
  | unspecified | created | queued | started | waiting | readyForReview | completed | failed
  | cancelled
  deriving DecidableEq

structure TaskView where
  taskId : String
  sessionId : String
  title : String
  state : TaskStatus
  createdAt : String
  generation : Nat
  parentTaskId : String
  deriving DecidableEq

def mapState (state : String) : TaskStatus :=
  if state = "created" then .created
  else if state = "queued" then .queued
  else if state = "running" then .started
  else if state = "ready_for_review" then .readyForReview
  else if state = "completed" then .completed
  else if state = "failed" then .failed
  else if state = "cancelled" then .cancelled
  else if Text.startsWith state "waiting_" then .waiting
  else .unspecified

def firstLine (text : String) : Option String := (Text.lines text.toList).head?.map String.ofList

def taskRow (db : Db) (taskId : String) : Option TaskRow :=
  db.projections.tasks.find? (fun t => t.taskId = taskId)

def taskView (db : Db) (taskId : String) : Option TaskView :=
  (taskRow db taskId).map (fun t =>
    { taskId := t.taskId, sessionId := t.sessionId, title := (firstLine t.goalText).getD "",
      state := mapState t.state, createdAt := t.createdAt, generation := t.generation,
      parentTaskId := t.parentTaskId.getD "" })

/-- A message of the code, or the error of something it calls. -/
inductive SpawnError where
  | message (text : String)
  | rejected (reason : Reason)
  | store (e : StoreError)
  /-- An operation of the store has failed. -/
  | fault
  /-- After "agent node persist failed: ". -/
  | node (e : FleetError)
  /-- After "bad parent session: ". -/
  | session
  deriving DecidableEq

/-! ### The services -/

structure Services where
  db : Db
  fleet : Option FleetStore
  /-- A thread has panicked with the lock of the fleet. -/
  poisoned : Bool
  /-- `MODBIT_MAX_CHILD_AGENTS`. -/
  maxChildren : Nat

/-- How a command fails: the store refuses it, or its event is not read back. -/
inductive CallFault where
  | none | store | lookup
  deriving DecidableEq

structure Turn where
  commandId : String
  oracle : Oracle
  fault : CallFault
  /-- The statement on the write scopes that fails. -/
  statement : Option Nat
  disk : Disk

def aggregateOfEvent (db : Db) (eventId : String) (fault : CallFault) :
    Except SpawnError (Option String) :=
  if fault = .lookup then .error .fault
  else
    match db.events.find? (fun r => r.eventId = eventId) with
    | none => .error .fault
    | some r => .ok (some r.aggregateId)

def aggregateOfFirst (db : Db) (ids : List String) (fault : CallFault) :
    Except SpawnError (Option String) :=
  match ids.head? with
  | none => .ok none
  | some eventId => aggregateOfEvent db eventId fault

/-- `CoreServices::execute`. -/
def executeCommand (db : Db) (payload : CommandPayload) (turn : Turn) :
    Db × Except SpawnError (Option String) :=
  if turn.fault = .store then (db, .error .fault)
  else
    match execute db ⟨turn.commandId, ⟨.user, "desktop-main"⟩, payload⟩ turn.oracle with
    | (db, .ok (.applied ids)) => (db, aggregateOfFirst db ids turn.fault)
    | (db, .ok (.replayed ids)) => (db, aggregateOfFirst db ids turn.fault)
    | (db, .ok (.rejected reason)) => (db, .error (.rejected reason))
    | (db, .error e) => (db, .error (.store e))

/-- An acquisition of which a statement may fail: the sweep, the query, the delete, or one of the
inserts.  What was executed before stays. -/
def acquireUpTo (db : Db) (taskId repoKey scopeSpec : String) (statement : Option Nat) :
    Db × Except SpawnError AcquireOutcome :=
  let paths := parseScope scopeSpec
  let pruned := releaseTerminal db
  let dropped := release pruned taskId
  match statement with
  | none => (acquire db taskId repoKey scopeSpec).map id .ok
  | some n =>
    if paths = [] then (db, .ok .acquired)
    else if n = 0 then (db, .error .fault)
    else if n = 1 then (pruned, .error .fault)
    else if (findConflict (heldScopes pruned repoKey) paths).isSome then
      (acquire db taskId repoKey scopeSpec).map id .ok
    else if n = 2 then (pruned, .error .fault)
    else if n < 3 + paths.length then
      ({ dropped with taskWriteScopes := dropped.taskWriteScopes
          ++ (paths.take (n - 3)).map (fun path => ⟨taskId, repoKey, path⟩) }, .error .fault)
    else (acquire db taskId repoKey scopeSpec).map id .ok

def parentRepoKey (db : Db) (taskId : String) : String :=
  (((db.events.find? (fun r => r.aggregateId = taskId ∧ r.eventType = "task_created")).bind
    (fun r => (r.payloadInline.field "repo_id").bind Json.asStr)).filter (· ≠ "")).getD "default"

def findByIdempotencyKey (f : AgentFleet) (key : String) : Option AgentNode :=
  (f.idempotency.find? key).bind f.nodes.find?

/-! ### The phases of a call -/

inductive Phase where
  | lookup
  | parent
  | count (session : String)
  | create (session : String)
  | node (child : String)
  | acquire (child : String)
  | queue (child : String)
  | start (child : String)
  | release (child : String) (e : SpawnError)
  | cancel (child : String) (e : SpawnError)
  | done (r : Except SpawnError (Option TaskView))
  | panicked
  deriving DecidableEq

namespace Services

variable (s : Services) (spawn : SpawnAgentCommand)

def refuse (text : String) : Phase := .done (.error (.message text))

/-- The request, and the idempotent re-attach before any admission step. -/
def lookup : Phase :=
  if spawn.parentTaskId = "" then refuse "spawn_agent requires parent_task_id"
  else if spawn.idempotencyKey = "" then .parent
  else
    match s.fleet with
    | none => .parent
    | some f =>
      if s.poisoned then refuse "agent fleet poisoned"
      else
        match findByIdempotencyKey f.fleet spawn.idempotencyKey with
        | some node => .done (.ok (taskView s.db node.taskId))
        | none => .parent

def checkParent : Phase :=
  match taskRow s.db spawn.parentTaskId with
  | none => refuse ("parent task " ++ spawn.parentTaskId ++ " does not exist")
  | some row =>
    if row.state ∈ TERMINAL_STATES then
      refuse ("parent task " ++ spawn.parentTaskId ++ " is not active (state " ++ row.state ++ ")")
    else if spawn.parentGeneration ≠ 0 ∧ spawn.parentGeneration ≠ row.generation then
      refuse ("parent generation fenced: parent is at " ++ toString row.generation
        ++ ", request expected " ++ toString spawn.parentGeneration)
    else .count row.sessionId

/-- `LIKE 'waiting_%'`, which takes `_` for any character and no notice of case. -/
def likeWaiting (state : String) : Bool :=
  (state.toList.take 7).map Char.toLower == "waiting".toList && 8 ≤ state.length

def counted (state : String) : Bool :=
  state == "queued" || state == "running" || state == "ready_for_review" || likeWaiting state

def activeChildren (db : Db) (parent : String) : Nat :=
  (db.projections.tasks.filter (fun t => t.parentTaskId = some parent && counted t.state)).length

def checkCount (session : String) : Phase :=
  let active := activeChildren s.db spawn.parentTaskId
  if active ≥ s.maxChildren then
    refuse ("capacity ticket exhausted: " ++ toString active ++ " active children (max "
      ++ toString s.maxChildren ++ ")")
  else .create session

def createPayload (sessionId : SessionId) : CommandPayload :=
  .createTask sessionId ((firstLine spawn.objective).getD "child agent") spawn.objective none none
    (some spawn.parentTaskId)

def create (session : String) (turn : Turn) : Services × Phase :=
  match (Id.parse session : Option SessionId) with
  | none => (s, .done (.error .session))
  | some sessionId =>
    match executeCommand s.db (createPayload spawn sessionId) turn with
    | (db, .error e) => ({ s with db := db }, .done (.error e))
    | (db, .ok none) => ({ s with db := db }, refuse "child task creation produced no event")
    | (db, .ok (some child)) => ({ s with db := db }, .node child)

variable (json : Jsonl.Codec AgentNode)

def key : Option String := if spawn.idempotencyKey = "" then none else some spawn.idempotencyKey

def afterNode (child : String) : FleetStore × Reply → Services × Phase
  | (f, .err e) => ({ s with fleet := some f }, .release child (.node e))
  | (f, .panicked) => ({ s with fleet := some f, poisoned := true }, .panicked)
  | (f, _) => ({ s with fleet := some f }, .acquire child)

def recordNode (child : String) (turn : Turn) : Services × Phase :=
  match s.fleet with
  | none => (s, .acquire child)
  | some f =>
    if s.poisoned then
      (s, .release child (.message "agent fleet poisoned: poisoned lock: another task failed inside"))
    else
      let parentAgent := (f.fleet.nodes.find? spawn.parentTaskId).map AgentNode.agentId
      s.afterNode child (f.spawnChild json turn.disk parentAgent child child spawn.objective
        (parseScope spawn.writeScope) (key spawn))

def acquireScope (child : String) (turn : Turn) : Services × Phase :=
  match acquireUpTo s.db child (parentRepoKey s.db spawn.parentTaskId) spawn.writeScope
      turn.statement with
  | (db, .error e) => ({ s with db := db }, .done (.error e))
  | (db, .ok (.denied holder path)) =>
    ({ s with db := db },
      .release child (.message ("write-set conflict with " ++ holder ++ ": " ++ path)))
  | (db, .ok .acquired) => ({ s with db := db }, .queue child)

/-- `parse_task_id`, which draws an id for a text that is not one. -/
def parseTaskId (child : String) (turn : Turn) : TaskId := (Id.parse child).getD ⟨turn.oracle.aggregate⟩

/-- A command on the child; a failure is compensated. -/
def moveChild (child : String) (payload : CommandPayload) (next : Db → Phase) (turn : Turn) :
    Services × Phase :=
  match executeCommand s.db payload turn with
  | (db, .error e) => ({ s with db := db }, .release child e)
  | (db, .ok _) => ({ s with db := db }, next db)

def releaseChild (child : String) (e : SpawnError) (turn : Turn) : Services × Phase :=
  let db := if turn.statement = some 0 then s.db else release s.db child
  ({ s with db := db }, .cancel child e)

def cancelChild (child : String) (e : SpawnError) (turn : Turn) : Services × Phase :=
  match (Id.parse child : Option TaskId) with
  | none => (s, .done (.error e))
  | some taskId =>
    let payload := .cancelTask taskId "admission failed after task creation"
    ({ s with db := (executeCommand s.db payload turn).1 }, .done (.error e))

def advance (turn : Turn) : Phase → Services × Phase
  | .lookup => (s, s.lookup spawn)
  | .parent => (s, s.checkParent spawn)
  | .count session => (s, s.checkCount spawn session)
  | .create session => s.create spawn session turn
  | .node child => s.recordNode spawn json child turn
  | .acquire child => s.acquireScope spawn child turn
  | .queue child =>
    s.moveChild child (.queueTask (parseTaskId child turn)) (fun _ => .start child) turn
  | .start child =>
    s.moveChild child (.startTask (parseTaskId child turn))
      (fun db => .done (.ok (taskView db child))) turn
  | .release child e => s.releaseChild child e turn
  | .cancel child e => s.cancelChild child e turn
  | .done r => (s, .done r)
  | .panicked => (s, .panicked)

end Services

structure Turns where
  create : Turn
  node : Turn
  acquire : Turn
  queue : Turn
  start : Turn
  release : Turn
  cancel : Turn

def Turns.at (turns : Turns) : Phase → Turn
  | .node _ => turns.node
  | .acquire _ => turns.acquire
  | .queue _ => turns.queue
  | .start _ => turns.start
  | .release _ _ => turns.release
  | .cancel _ _ => turns.cancel
  | _ => turns.create

def runPhase (json : Jsonl.Codec AgentNode) (turns : Turns) (spawn : SpawnAgentCommand)
    (c : Services × Phase) : Services × Phase :=
  c.1.advance spawn json (turns.at c.2) c.2

/-- A call run to its end: no call has more than ten phases. -/
def spawnAgent (json : Jsonl.Codec AgentNode) (turns : Turns) (s : Services)
    (spawn : SpawnAgentCommand) : Services × Phase :=
  (runPhase json turns spawn)^[10] (s, .lookup)

end Fleet

end Modbit
