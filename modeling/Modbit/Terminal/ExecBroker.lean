import Modbit.Lib.OrdMap
import Modbit.Lib.ProcessTable
import Modbit.Lib.Run
import Mathlib.Data.String.Basic

/-!
# The exec broker

`ExecBroker` of `crates/terminal`: a run has a directory with its output log and its state, the
broker has the handles of the processes it has started, and the operating system has the processes.
`World` is all three; in between processes write and end, are reaped, other processes take their
numbers, and the broker is restarted and has no handles then.

`dirOf` is the directory a run id leads to; several ids may lead to one.  The call that waits for a
process is the step in which the process has ended.

`written` and `signals` keep what was written to the state files and which processes were
signalled; `Kept` is what is promised of them.
-/

namespace Modbit

open Lib

namespace ExecBroker

inductive TerminalError where
  | unknownRun (id : String)
  | emptyArgv
  | io
  deriving DecidableEq

inductive RunState where
  | running
  | exited (code : Int)
  | killed
  | interrupted
  deriving DecidableEq

def RunState.Final (s : RunState) : Prop := s ≠ .running

instance : DecidablePred RunState.Final := fun s => inferInstanceAs (Decidable (s ≠ .running))

structure RunMeta where
  runId : String
  argv : List String
  state : RunState
  startedAtMs : Nat
  endedAtMs : Option Nat
  pid : Option Nat
  deriving DecidableEq

/-- A directory of a run: the bytes of the log, each with the process that wrote it, and the state. -/
structure RunDir where
  log : List (UInt8 × Nat)
  status : Option RunMeta
  deriving DecidableEq

/-- A process is of a run directory, or of nobody here. -/
abbrev Procs := List (Process (Option String))

/-- A process that `stop` has signalled for a directory, and how it was. -/
structure Signal where
  dir : String
  target : Process (Option String)
  deriving DecidableEq

structure World where
  dirs : OrdMap String RunDir
  children : OrdMap String Nat
  procs : Procs
  /-- The states that were written, oldest first. -/
  written : List (String × RunState)
  signals : List Signal
  /-- The directories of the runs that were started. -/
  started : List String

/-- `process` is the number the operating system gives the new process, if it can be started. -/
inductive Event where
  | spawnFull (id : String) (argv : List String) (process : Option Nat) (now : Nat)
  | status (id : String) (now : Nat)
  | stop (id : String) (now : Nat)
  | waitAndRecord (id : String) (now : Nat)
  | readOutput (id : String) (offset max : Nat)
  | restart
  | exit (i : Nat) (code : Int)
  | output (i : Nat) (bytes : List UInt8)
  | reap (i : Nat)
  | foreign (pid : Nat)

inductive Answer where
  | done
  | status (m : RunMeta)
  | state (s : RunState)
  | output (bytes : List UInt8) (offset : Nat)
  | none
  deriving DecidableEq

def READ_CHUNK_MAX : Nat := 512 * 1024

namespace World

variable (dirOf : String → String)

def fresh : World := ⟨.empty, .empty, [], [], [], []⟩

def metaAt (w : World) (dir : String) : Option RunMeta := (w.dirs.find? dir).bind RunDir.status

def logAt (w : World) (dir : String) : List (UInt8 × Nat) := ((w.dirs.find? dir).map RunDir.log).getD []

/-- `persist_meta`. -/
def persistMeta (w : World) (dir : String) (m : RunMeta) : World :=
  { w with
    dirs := w.dirs.insert dir ⟨w.logAt dir, some m⟩
    written := w.written ++ [(dir, m.state)] }

def setLife (w : World) (i : Nat) (life : Life) : World :=
  { w with procs := ProcessTable.setLife w.procs i life }

def lifeOf (w : World) (i : Nat) : Option Life := w.procs[i]?.map Process.life

/-- `pid_alive`: a zombie counts as dead. -/
def pidAlive (w : World) (pid : Nat) : Bool :=
  ((ProcessTable.byPid w.procs pid).bind w.lifeOf) = some .running

def signal (w : World) (dir : String) (i : Nat) : World :=
  match w.procs[i]? with
  | some target => { w with signals := w.signals ++ [⟨dir, target⟩] }
  | none => w

/-- `kill_pid`: whichever process has the number. -/
def killPid (w : World) (dir : String) (pid : Nat) : World × Bool :=
  match ProcessTable.byPid w.procs pid with
  | some i => (w.signal dir i, true)
  | none => (w, false)

def spawnFull (w : World) (id : String) (argv : List String) (process : Option Nat) (now : Nat) :
    World × Except TerminalError Answer :=
  if argv = [] then (w, .error .emptyArgv)
  else
    let dir := dirOf id
    -- `create_dir_all`, and the log is opened
    let d : RunDir := (w.dirs.find? dir).getD ⟨[], .none⟩
    let w' := { w with dirs := w.dirs.insert dir d }
    match process with
    | none => (w', .error .io)
    | some pid =>
      let p : Process (Option String) := ⟨pid, some dir, .running⟩
      let w' := { w' with
        procs := w.procs ++ [p]
        children := w.children.insert id w.procs.length
        started := w.started ++ [dir] }
      (w'.persistMeta dir ⟨id, argv, .running, now, none, some pid⟩, .ok .done)

def status (w : World) (id : String) (now : Nat) : World × Except TerminalError RunMeta :=
  let dir := dirOf id
  match w.dirs.find? dir with
  | none => (w, .error (.unknownRun id))
  | some d =>
    match d.status with
    | none => (w, .error .io)
    | some m =>
      if m.state = .running then
        match w.children.find? id with
        | some i =>
          match w.lifeOf i with
          | some (.ended code) | some (.reaped code) =>
            let m := { m with state := .exited code }
            ((w.setLife i (.reaped code)).persistMeta dir m, .ok m)
          -- held and running
          | _ => (w, .ok m)
        | none =>
          match m.pid with
          | some pid =>
            if w.pidAlive pid then (w, .ok m)
            else
              let m := { m with state := .interrupted, endedAtMs := some now }
              (w.persistMeta dir m, .ok m)
          | none => (w, .ok m)
      else (w, .ok m)

/-- The state `stop` writes at its end. -/
def markKilled (w : World) (dir : String) (now : Nat) : World × Except TerminalError Answer :=
  match w.metaAt dir with
  | none => (w, .error .io)
  | some m => (w.persistMeta dir { m with state := .killed, endedAtMs := some now }, .ok .done)

def stop (w : World) (id : String) (now : Nat) : World × Except TerminalError Answer :=
  let dir := dirOf id
  match w.children.find? id with
  | some i =>
    let w := { w with children := w.children.erase id }
    match w.lifeOf i with
    | some .running => markKilled ((w.signal dir i).setLife i (.reaped (-1))) dir now
    | some (.ended code) => markKilled ((w.signal dir i).setLife i (.reaped code)) dir now
    -- `kill` of a child that was waited for does nothing
    | _ => markKilled w dir now
  | none =>
    match w.metaAt dir with
    | none => (w, .error .io)
    | some m =>
      match m.pid with
      | none => (w, .error (.unknownRun id))
      | some pid =>
        match w.killPid dir pid with
        | (w, true) => markKilled w dir now
        | (w, false) => (w, .error .io)

/-- The step in which the process that is waited for has ended; while it runs, nothing happens. -/
def waitAndRecord (w : World) (id : String) (now : Nat) : World × Except TerminalError Answer :=
  match w.children.find? id with
  | none => (w, .error (.unknownRun id))
  | some i =>
    match w.lifeOf i with
    | some (.ended code) | some (.reaped code) =>
      let w := { w.setLife i (.reaped code) with children := w.children.erase id }
      -- `record_state`
      match w.status dirOf id now with
      | (w, .error e) => (w, .error e)
      | (w, .ok m) =>
        (w.persistMeta (dirOf id) { m with state := .exited code, endedAtMs := some now },
          .ok (.state (.exited code)))
    | _ => (w, .ok .none)

def readOutput (w : World) (id : String) (offset max : Nat) : Except TerminalError Answer :=
  match w.dirs.find? (dirOf id) with
  | none => .error .io
  | some d =>
    let start := Nat.min offset d.log.length
    let take := Nat.min (Nat.min READ_CHUNK_MAX max) (d.log.length - start)
    .ok (.output (((d.log.drop start).take take).map Prod.fst) (start + take))

def output (w : World) (i : Nat) (bytes : List UInt8) : World :=
  match w.procs[i]? with
  | some ⟨_, some dir, .running⟩ =>
    match w.dirs.find? dir with
    | some d => { w with dirs := w.dirs.insert dir { d with log := d.log ++ bytes.map (fun b => (b, i)) } }
    | none => w
  | _ => w

def step (w : World) : Event → World × Except TerminalError Answer
  | .spawnFull id argv process now =>
    -- a number that is in use is not given to a new process
    if process.any (fun pid => (ProcessTable.byPid w.procs pid).isSome) then (w, .ok .none)
    else w.spawnFull dirOf id argv process now
  | .status id now => ((w.status dirOf id now).1, (w.status dirOf id now).2.map .status)
  | .stop id now => w.stop dirOf id now
  | .waitAndRecord id now => w.waitAndRecord dirOf id now
  | .readOutput id offset max => (w, w.readOutput dirOf id offset max)
  | .restart => ({ w with children := .empty }, .ok .none)
  | .exit i code =>
    (match w.lifeOf i with
    | some .running => w.setLife i (.ended code)
    | _ => w, .ok .none)
  | .output i bytes => (w.output i bytes, .ok .none)
  | .reap i =>
    -- not while the broker has the handle of its child
    (match w.lifeOf i with
    | some (.ended code) =>
      if w.children.entries.any (fun e => e.2 = i) then w else w.setLife i (.reaped code)
    | _ => w, .ok .none)
  | .foreign pid =>
    (if (ProcessTable.byPid w.procs pid).isSome then w
    else { w with procs := w.procs ++ [⟨pid, none, .running⟩] }, .ok .none)

/-! ### What is promised -/

/-- A state that is final is not followed by another one; only a process of the run that has not ended is
signalled; a run is started once; and its log is written by its own process. -/
structure Kept (w : World) : Prop where
  final : w.written.Pairwise (fun a b => a.1 = b.1 → a.2.Final → b.2 = a.2)
  signals : ∀ s ∈ w.signals, s.target.owner = some s.dir ∧ s.target.life = .running
  once : w.started.Nodup
  logs : ∀ dir, ∀ b ∈ w.logAt dir, ∀ (i : Nat) p, w.procs[i]? = some p → p.owner = some dir → b.2 = i

/-- The process of a directory's run has not ended. -/
def StillRuns (w : World) (dir : String) : Prop :=
  ∃ p ∈ w.procs, p.owner = some dir ∧ p.life = .running

instance (w : World) (dir : String) : Decidable (w.StillRuns dir) :=
  inferInstanceAs (Decidable (∃ p ∈ w.procs, p.owner = some dir ∧ p.life = .running))

/-- A run that is there is not started again; a run is stopped while its process runs, or when the broker
has no handle and no process has its number; and a run is waited for only after `status` has seen its
end. -/
def Careful (w : World) : Event → Prop
  | .spawnFull id argv process _ => argv ≠ [] → process ≠ none → w.metaAt (dirOf id) = none
  | .stop id _ => w.StillRuns (dirOf id) ∨ w.children.find? id = none ∧
      ∀ m pid, w.metaAt (dirOf id) = some m → m.pid = some pid → ProcessTable.byPid w.procs pid = none
  | .waitAndRecord id _ => w.children.find? id ≠ none →
      ∀ m, w.metaAt (dirOf id) = some m → ∃ code, m.state = .exited code
  | _ => True

end World

end ExecBroker

end Modbit
