import Modbit.Agent.TaskRows
import Modbit.Automation.Cron

/-!
# The automation engine

Automations stand in a table, each with a cron spec or with an event type.  A tick lists them and
goes through the list.  A cron automation is due when the minute matches and its key is not the
last one that was recorded; one with an event type is due when there are events of that type after
the last row that was recorded.  What is due creates a task in the first session and queues it,
and then the key, or the last row, is recorded.

Every operation on the store is a step of its own (`Engine.advance`), and the process may stop
between any two.  `fires` lists the tasks that ticks have created, with what each was created for.
-/

namespace Modbit

open Lib

namespace Automations

/-! ### The table -/

structure Automation where
  automationId : String
  name : String
  cron : String
  eventPattern : String
  objective : String
  enabled : Bool
  /-- The minute key of the last fire, or the last row that was consumed. -/
  lastFireKey : String
  deriving DecidableEq

/-- `create`: an empty id is replaced by the one that is drawn. -/
def create (table : List Automation) (a : Automation) (drawn : String) :
    Except String (List Automation) :=
  let a := if a.automationId = "" then { a with automationId := "auto-" ++ drawn } else a
  if a.cron = "" ∧ a.eventPattern = "" then
    .error "automation needs a cron spec or an event pattern"
  else if Text.trim a.objective = "" then .error "automation needs an objective"
  else if a.automationId ∈ table.map Automation.automationId then .error "automations: "
  else .ok (table ++ [a])

def setEnabled (table : List Automation) (automationId : String) (enabled : Bool) :
    List Automation :=
  table.map (fun a => if a.automationId = automationId then { a with enabled := enabled } else a)

def recordFire (table : List Automation) (automationId boundary : String) : List Automation :=
  table.map (fun a => if a.automationId = automationId then { a with lastFireKey := boundary } else a)

/-- The last row that an event automation has consumed. -/
def Automation.consumed (a : Automation) : Int := (Text.parseI64 a.lastFireKey.toList).getD (-1)

def matchingAfter (db : Db) (pattern : String) (consumed : Int) : List Nat :=
  ((db.events.zipIdx 1).filter (fun r => r.1.eventType = pattern ∧ consumed < (r.2 : Int))).map
    Prod.snd

/-! ### A tick -/

inductive Cause where
  | minute (key : String)
  | events (rowids : List Nat)
  deriving DecidableEq

def Cause.rowids : Cause → List Nat
  | .minute _ => []
  | .events rowids => rowids

def Cause.boundary : Cause → String
  | .minute key => key
  | .events rowids => String.ofList (Nat.toDigits 10 (rowids.getLast?.getD 0))

structure Fire where
  automationId : String
  cause : Cause
  task : String
  deriving DecidableEq

inductive FireError where
  | message (text : String)
  | store (e : StoreError)
  /-- An operation of the store has failed. -/
  | fault
  /-- After "bad session: ". -/
  | session
  /-- An aggregate that is not the text of a task id. -/
  | task
  deriving DecidableEq

/-- Where a tick is with the first automation of its list. -/
inductive Phase where
  | scan
  | session (cause : Cause)
  | create (cause : Cause) (sessionId : SessionId)
  | resolve (cause : Cause) (outcome : Outcome)
  | queue (cause : Cause) (task : TaskId)
  | record (cause : Cause) (task : TaskId)
  deriving DecidableEq

structure Tick where
  now : Nat
  listed : List Automation
  rest : List Automation
  phase : Phase
  fired : List (String × String)
  errors : List (String × FireError)
  /-- A read has failed. -/
  unread : Bool
  /-- The events when it began. -/
  seen : Nat

/-- The engine and its store, with what ticks have done. -/
structure Engine where
  db : Db
  automations : List Automation
  tick : Option Tick
  fires : List Fire
  /-- The minute keys of the ticks. -/
  keys : List String
  /-- How many events there were when each automation was registered. -/
  registered : List (String × Nat)
  /-- The ticks that have ended. -/
  ended : List Tick

structure Turn where
  commandId : String
  oracle : Oracle
  fault : Bool

namespace Tick

def skip (t : Tick) : Tick := { t with rest := t.rest.tail, phase := .scan }

def fail (t : Tick) (a : Automation) (e : FireError) : Tick :=
  { t.skip with errors := t.errors ++ [(a.automationId, e)] }

def due (t : Tick) (cause : Cause) : Tick := { t with phase := .session cause }

def scan (t : Tick) (db : Db) (a : Automation) (fault : Bool) : Tick :=
  if !a.enabled then t.skip
  else if a.eventPattern = "" then
    match CronSpec.parse a.cron with
    | none => t.fail a (.message ("unparsable cron " ++ Text.debugStr a.cron))
    | some spec =>
      if a.lastFireKey = minuteKey t.now ∨ !spec.matchesMinute (t.now - t.now % 60) then t.skip
      else t.due (.minute (minuteKey t.now))
  else if fault then { t.skip with unread := true }
  else
    match matchingAfter db a.eventPattern a.consumed with
    | [] => t.skip
    | r :: rs => t.due (.events (r :: rs))

def findSession (t : Tick) (db : Db) (a : Automation) (cause : Cause) (fault : Bool) : Tick :=
  match (if fault then none else db.events.find? (fun r => r.aggregateType = "session")) with
  | none => t.fail a (.message "no session exists yet")
  | some r =>
    match (Id.parse r.aggregateId : Option SessionId) with
    | none => t.fail a .session
    | some sessionId => { t with phase := .create cause sessionId }

def eventIds : Outcome → List String
  | .applied ids => ids
  | .replayed ids => ids
  | .rejected _ => []

/-- `aggregate_of`. -/
def aggregateOf (db : Db) (outcome : Outcome) (fault : Bool) : Option String :=
  if fault then none
  else (eventIds outcome).head?.bind (fun id =>
    (db.events.find? (fun r => r.eventId = id)).map EventRow.aggregateId)

def resolve (t : Tick) (db : Db) (a : Automation) (cause : Cause) (outcome : Outcome)
    (fault : Bool) : Tick :=
  match aggregateOf db outcome fault with
  | none => t.fail a (.message "automation fire produced no task")
  | some text =>
    match (Id.parse text : Option TaskId) with
    | none => t.fail a .task
    | some task => { t with phase := .queue cause task }

end Tick

namespace Engine

variable (e : Engine)

def createCommand (a : Automation) (sessionId : SessionId) (turn : Turn) : Command :=
  ⟨turn.commandId, ⟨.system, a.automationId⟩,
    .createTask sessionId ("automation: " ++ a.name) a.objective none none none⟩

def queueCommand (a : Automation) (task : TaskId) (turn : Turn) : Command :=
  ⟨turn.commandId, ⟨.system, a.automationId⟩, .queueTask task⟩

def added (db db' : Db) : List TaskRow := db'.projections.tasks.drop db.projections.tasks.length

/-- The answer to `CreateTask`. -/
def created (t : Tick) (a : Automation) (cause : Cause) (r : Db × Except StoreError Outcome) :
    Engine :=
  { e with
    db := r.1
    fires := e.fires ++ (added e.db r.1).map (fun row => ⟨a.automationId, cause, row.taskId⟩)
    tick := some (match r.2 with
      | .error x => t.fail a (.store x)
      | .ok outcome => { t with phase := .resolve cause outcome }) }

/-- The answer to `QueueTask`, whatever the outcome is. -/
def queued (t : Tick) (a : Automation) (cause : Cause) (task : TaskId)
    (r : Db × Except StoreError Outcome) : Engine :=
  { e with
    db := r.1
    tick := some (match r.2 with
      | .error x => t.fail a (.store x)
      | .ok _ => { t with phase := .record cause task }) }

/-- The record of the fire; that it fails is not noticed. -/
def recorded (t : Tick) (a : Automation) (cause : Cause) (task : TaskId) (fault : Bool) : Engine :=
  { e with
    automations :=
      if fault then e.automations else recordFire e.automations a.automationId cause.boundary
    tick := some { t.skip with fired := t.fired ++ [(a.automationId, task.toText)] } }

def advance (t : Tick) (turn : Turn) : Engine :=
  match t.rest with
  | [] => { e with tick := none, ended := e.ended ++ [t] }
  | a :: _ =>
    match t.phase with
    | .scan => { e with tick := some (t.scan e.db a turn.fault) }
    | .session cause => { e with tick := some (t.findSession e.db a cause turn.fault) }
    | .create cause sessionId =>
      if turn.fault then { e with tick := some (t.fail a .fault) }
      else e.created t a cause (execute e.db (createCommand a sessionId turn) turn.oracle)
    | .resolve cause outcome => { e with tick := some (t.resolve e.db a cause outcome turn.fault) }
    | .queue cause task =>
      if turn.fault then { e with tick := some (t.fail a .fault) }
      else e.queued t a cause task (execute e.db (queueCommand a task turn) turn.oracle)
    | .record cause task => e.recorded t a cause task turn.fault

end Engine

/-! ### Runs -/

inductive Event where
  | tick (nowEpochSecs : Nat) (fault : Bool)
  | advance (turn : Turn)
  /-- The process stops, and starts again. -/
  | stop
  | register (a : Automation) (drawn : String)
  | setEnabled (automationId : String) (enabled : Bool)
  /-- A call of another. -/
  | op (op : Op)

def step (e : Engine) : Event → Engine × Unit
  | .tick now fault =>
    match e.tick with
    | some _ => (e, ())
    | none =>
      let listed := if fault then [] else e.automations
      ({ e with
        tick := some ⟨now, listed, listed, .scan, [], [], fault, e.db.events.length⟩
        keys := e.keys ++ [minuteKey now] }, ())
  | .advance turn =>
    match e.tick with
    | none => (e, ())
    | some t => (e.advance t turn, ())
  | .stop => ({ e with tick := none }, ())
  | .register a drawn =>
    match create e.automations a drawn with
    | .error _ => (e, ())
    | .ok table =>
      ({ e with
        automations := table
        registered := e.registered ++ (table.drop e.automations.length).map
          (fun a => (a.automationId, e.db.events.length)) }, ())
  | .setEnabled id enabled => ({ e with automations := setEnabled e.automations id enabled }, ())
  | .op op => ({ e with db := (Modbit.step e.db op).1 }, ())

def start : Engine := ⟨.empty, [], none, [], [], [], []⟩

end Automations

end Modbit
