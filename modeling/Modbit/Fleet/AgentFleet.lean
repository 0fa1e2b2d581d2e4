import Mathlib.Data.String.Basic
import Modbit.Lib.Fallible
import Modbit.Lib.Jsonl
import Modbit.Lib.OrdMap
import Modbit.Lib.Run

/-!
# The agent fleet

The nodes of the agents, the spawn keys that lead to them, and a journal with one line for
every node as it was last written.  An operation changes the maps in memory and appends the
node's line; `load` reads the lines back, the last one of an agent counting.

The journal write of an operation may fail (`Disk`).  Spawning registers its key before the
write and the node after it; the other operations change the node before the write, and a
refused protected effect sends the parent to the background before it is refused.
-/

namespace Modbit

open Lib

namespace Fleet

/-! ### Nodes -/

inductive AgentStatus where
  | foreground | background | parked | completed | cancelled
  deriving DecidableEq

/-- The status as `{:?}` prints it. -/
def AgentStatus.debug : AgentStatus → String
  | .foreground => "Foreground"
  | .background => "Background"
  | .parked => "Parked"
  | .completed => "Completed"
  | .cancelled => "Cancelled"

def AgentStatus.finished : AgentStatus → Bool
  | .completed => true
  | .cancelled => true
  | _ => false

structure AgentExecutionCapsule where
  allowedTools : OrdMap String Unit
  contextRefs : OrdMap String Unit
  modelPolicy : String
  maxOutputTokens : UInt64
  maxToolCalls : UInt64
  canRequestExpansion : Bool

def AgentExecutionCapsule.default : AgentExecutionCapsule where
  allowedTools := .empty
  contextRefs := .empty
  modelPolicy := "task-scoped"
  maxOutputTokens := 4096
  maxToolCalls := 32
  canRequestExpansion := false

inductive SteerCommand where
  | steer (instruction : String)
  | cancel (reason : String)
  | followUp (question : String)
  deriving DecidableEq

structure AgentNode where
  agentId : String
  parent : Option String
  root : String
  task : String
  status : AgentStatus
  toolCursor : UInt64
  contextRefs : List String
  capsule : AgentExecutionCapsule
  idempotencyKey : Option String
  taskId : String
  writeScope : List String

inductive FleetError where
  | persistence
  | unknownAgent (id : String)
  | cannotStealCompleted (id : String)
  | privilegeExpansionRefused (agent effect : String)
  deriving DecidableEq

structure AgentFleet where
  nodes : OrdMap String AgentNode
  idempotency : OrdMap String String
  journal : Bool

/-- What an operation answers; indexing a map at a missing key panics. -/
inductive Reply where
  | node (n : AgentNode)
  | done
  | boundary (cursor : UInt64)
  | text (s : String)
  | err (e : FleetError)
  | panicked

/-! ### The journal -/

/-- What becomes of a journal write: a write that fails has not opened the file, or has written
some bytes of the line. -/
inductive Disk where
  | writes
  | fails (written : Option Nat)
  deriving DecidableEq

structure FleetStore where
  fleet : AgentFleet
  file : Option (List UInt8)

variable (json : Jsonl.Codec AgentNode)

namespace AgentFleet

def new : AgentFleet := ⟨.empty, .empty, false⟩

def registered (f : AgentFleet) (n : AgentNode) : OrdMap String String :=
  match n.idempotencyKey with
  | some key => f.idempotency.insert key n.agentId
  | none => f.idempotency

def replay (f : AgentFleet) (n : AgentNode) : AgentFleet :=
  { f with
    nodes := f.nodes.insert n.agentId n
    idempotency := f.registered n }

/-- The fleet of a journal; `none` where the file or a line of it cannot be read. -/
def load (file : Option (List UInt8)) : Option AgentFleet :=
  (Jsonl.read json List.isEmpty file).map (fun ns => ns.foldl replay { new with journal := true })

def persistNode (f : AgentFleet) (disk : Disk) (file : Option (List UInt8)) (n : AgentNode) :
    Option (List UInt8) × Except FleetError Unit :=
  if f.journal then
    match disk with
    | .writes => (some (file.getD [] ++ Utf8.encode (Jsonl.line json n)), .ok ())
    | .fails none => (file, .error .persistence)
    | .fails (some written) =>
      (some (file.getD [] ++ (Utf8.encode (Jsonl.line json n)).take written), .error .persistence)
  else (file, .ok ())

end AgentFleet

/-! ### Operations -/

namespace FleetStore

open AgentFleet

variable (disk : Disk)

/-- The key of a spawn is registered, then its node is written and put into the map. -/
def register (s : FleetStore) (n : AgentNode) : FleetStore × Reply :=
  let f : AgentFleet := { s.fleet with idempotency := s.fleet.registered n }
  match f.persistNode json disk s.file n with
  | (file, .error e) => (⟨f, file⟩, .err e)
  | (file, .ok ()) => (⟨{ f with nodes := f.nodes.insert n.agentId n }, file⟩, .node n)

def rootFor (f : AgentFleet) (parent : Option String) (agentId : String) : Except FleetError String :=
  match parent with
  | some pid => (okOr (f.nodes.find? pid) (.unknownAgent pid)).map AgentNode.root
  | none => .ok agentId

/-- A spawn: a known key leads to the agent it was first used for. -/
def spawnWith (s : FleetStore) (parent : Option String) (agentId : String) (key : Option String)
    (node : String → AgentNode) : FleetStore × Reply :=
  match key.bind s.fleet.idempotency.find? with
  | some existing =>
    match s.fleet.nodes.find? existing with
    | some n => (s, .node n)
    | none => (s, .panicked)
  | none =>
    match rootFor s.fleet parent agentId with
    | .error e => (s, .err e)
    | .ok root => s.register json disk (node root)

def spawn (s : FleetStore) (parent : Option String) (agentId task : String)
    (capsule : AgentExecutionCapsule) (key : Option String) : FleetStore × Reply :=
  s.spawnWith json disk parent agentId key (fun root =>
    { agentId := agentId, parent := parent, root := root, task := task, status := .foreground,
      toolCursor := 0, contextRefs := [], capsule := capsule, idempotencyKey := key, taskId := "",
      writeScope := [] })

def spawnChild (s : FleetStore) (parentAgent : Option String) (agentId taskId task : String)
    (writeScope : List String) (key : Option String) : FleetStore × Reply :=
  s.spawnWith json disk parentAgent agentId key (fun root =>
    { agentId := agentId, parent := parentAgent, root := root, task := task, status := .foreground,
      toolCursor := 0, contextRefs := [], capsule := .default, idempotencyKey := key,
      taskId := taskId, writeScope := writeScope })

/-- A node is changed in memory, then its line is written. -/
def update (s : FleetStore) (agentId : String) (n : AgentNode) (reply : Reply) : FleetStore × Reply :=
  let changed : AgentFleet := { s.fleet with nodes := s.fleet.nodes.insert agentId n }
  match changed.persistNode json disk s.file n with
  | (file, .error e) => (⟨changed, file⟩, .err e)
  | (file, .ok ()) => (⟨changed, file⟩, reply)

def transition (s : FleetStore) (agentId : String) (target : AgentStatus) : FleetStore × Reply :=
  match s.fleet.nodes.find? agentId with
  | none => (s, .err (.unknownAgent agentId))
  | some n => s.update json disk agentId { n with status := target } .done

def setBackground (s : FleetStore) (agentId : String) : FleetStore × Reply :=
  s.transition json disk agentId .background

def setForeground (s : FleetStore) (agentId : String) : FleetStore × Reply :=
  s.transition json disk agentId .foreground

def advanceCursor (s : FleetStore) (agentId : String) (cursor : UInt64) : FleetStore × Reply :=
  match s.fleet.nodes.find? agentId with
  | none => (s, .err (.unknownAgent agentId))
  | some n => s.update json disk agentId { n with toolCursor := cursor } .done

def park (s : FleetStore) (agentId : String) : FleetStore × Reply :=
  s.transition json disk agentId .parked

def resume (s : FleetStore) (agentId : String) : FleetStore × Reply :=
  match s.fleet.nodes.find? agentId with
  | none => (s, .err (.unknownAgent agentId))
  | some n =>
    if n.status ≠ .parked then
      (s, .err (.unknownAgent (agentId ++ " is not parked (status " ++ n.status.debug ++ ")")))
    else s.transition json disk agentId .foreground

/-- The node after a command: only a cancellation changes it. -/
def steered (n : AgentNode) : SteerCommand → AgentNode
  | .cancel _ => { n with status := .cancelled }
  | .steer _ => n
  | .followUp _ => n

def steer (s : FleetStore) (agentId : String) (command : SteerCommand) : FleetStore × Reply :=
  match s.fleet.nodes.find? agentId with
  | none => (s, .err (.unknownAgent agentId))
  | some n =>
    if n.status.finished then (s, .err (.cannotStealCompleted agentId))
    else s.update json disk agentId (steered n command) (.boundary n.toolCursor)

def requestProtectedEffect (s : FleetStore) (agentId effect : String) : FleetStore × Reply :=
  match s.fleet.nodes.find? agentId with
  | none => (s, .err (.unknownAgent agentId))
  | some n =>
    if n.capsule.canRequestExpansion then
      (s, .text (agentId ++ " may prompt for " ++ Text.debugStr effect))
    else
      match n.parent with
      | none => (s, .err (.privilegeExpansionRefused agentId effect))
      | some parent =>
        match s.setBackground json disk parent with
        | (s, .err e) => (s, .err e)
        | (s, _) => (s, .err (.privilegeExpansionRefused agentId effect))

end FleetStore

inductive FleetOp where
  | spawn (parent : Option String) (agentId task : String) (capsule : AgentExecutionCapsule)
      (key : Option String)
  | spawnChild (parentAgent : Option String) (agentId taskId task : String)
      (writeScope : List String) (key : Option String)
  | setBackground (agentId : String)
  | setForeground (agentId : String)
  | advanceCursor (agentId : String) (cursor : UInt64)
  | park (agentId : String)
  | resume (agentId : String)
  | steer (agentId : String) (command : SteerCommand)
  | requestProtectedEffect (agentId effect : String)

def FleetStore.perform (disk : Disk) (s : FleetStore) : FleetOp → FleetStore × Reply
  | .spawn parent agentId task capsule key => s.spawn json disk parent agentId task capsule key
  | .spawnChild parent agentId taskId task scope key =>
    s.spawnChild json disk parent agentId taskId task scope key
  | .setBackground agentId => s.setBackground json disk agentId
  | .setForeground agentId => s.setForeground json disk agentId
  | .advanceCursor agentId cursor => s.advanceCursor json disk agentId cursor
  | .park agentId => s.park json disk agentId
  | .resume agentId => s.resume json disk agentId
  | .steer agentId command => s.steer json disk agentId command
  | .requestProtectedEffect agentId effect => s.requestProtectedEffect json disk agentId effect

end Fleet

end Modbit
