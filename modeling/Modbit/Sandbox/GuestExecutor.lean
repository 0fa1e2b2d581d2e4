import Modbit.Lib.Base64
import Modbit.Lib.Landing
import Modbit.Lib.Sha256
import Modbit.Lib.Utf8
import Modbit.Sandbox.GuestPaths

/-!
# The executor of a guest

`GuestExecutor` in `crates/sandbox/src/guest.rs`, with the broker of its pseudo terminals in
`crates/terminal/src/pty.rs`.  A request is answered from the replay cache if its id is there; one
of a newer generation advances the session, and any other goes through the gate; then the
operation is carried out, and its answer is cached unless it is a fence.

What the operating system and the programs decide is an input, `Outside`: fresh ids, how a program
ends and what it leaves in the tree, the texts of errors.  `none` in place of an answer is a panic
of the serving thread: a terminal is read with overflow checks, and a panic poisons the broker's
lock.  `performed` and the generations of children and sessions are kept for what is said about
them; the code does not have them.
-/

namespace Modbit.Sandbox

open Lib

/-! ### The session and its gate -/

structure GuestSession where
  task : String
  generation : Nat
  liveTokens : List String
  deriving DecidableEq

namespace GuestSession

def new (task : String) (liveTokens : List String) : GuestSession := ⟨task, 0, liveTokens⟩

def tokenLive (s : GuestSession) (token : String) : Bool := s.liveTokens.contains token

def revokeToken (s : GuestSession) (token : String) : GuestSession :=
  { s with liveTokens := s.liveTokens.filter (· ≠ token) }

end GuestSession

def gate (session : GuestSession) (req : GuestRequest) : Except GuestError Unit :=
  if req.rpcVersion ≠ guestRpcVersion then
    .error ⟨GuestErrorCodes.version, "unsupported guest rpc version " ++ toString req.rpcVersion⟩
  else if req.task ≠ session.task then
    .error ⟨GuestErrorCodes.wrongTask, "request task " ++ Text.debugStr req.task
      ++ " does not match guest binding " ++ Text.debugStr session.task
      ++ "; guest never serves another task"⟩
  else if session.tokenLive req.capabilityToken = false then
    .error ⟨GuestErrorCodes.staleCapability, "capability token is not live on this guest"⟩
  else if req.effectClass ∉ guestEffectClasses then
    .error ⟨GuestErrorCodes.unknownCapability,
      "unknown effect class " ++ Text.debugStr req.effectClass⟩
  else if req.op.effectClass ≠ req.effectClass then
    .error ⟨GuestErrorCodes.badRequest, "declared effect class " ++ Text.debugStr req.effectClass
      ++ " does not match operation class " ++ Text.debugStr req.op.effectClass⟩
  else if req.generation < session.generation then
    .error ⟨GuestErrorCodes.fenced, "stale generation " ++ toString req.generation
      ++ " (current " ++ toString session.generation ++ "); fenced"⟩
  else .ok ()

/-! ### The replay cache -/

structure IdempotencyCache where
  map : OrdMap String GuestResponse
  order : List String

namespace IdempotencyCache

def cap : Nat := 1024

def empty : IdempotencyCache := ⟨.empty, []⟩

def get (c : IdempotencyCache) (id : String) : Option GuestResponse := c.map.find? id

/-- The loop that makes room: the oldest ids go while there are too many. -/
def evict (map : OrdMap String GuestResponse) : List String → IdempotencyCache
  | [] => ⟨map, []⟩
  | old :: order =>
    if cap ≤ (old :: order).length then evict (map.erase old) order else ⟨map, old :: order⟩

def put (c : IdempotencyCache) (id : String) (response : GuestResponse) : IdempotencyCache :=
  if (c.map.find? id).isSome then c
  else
    let room := evict c.map c.order
    ⟨room.map.insert id response, room.order ++ [id]⟩

end IdempotencyCache

/-! ### The machine -/

/-- A process started by a request, with the generation of the request. -/
structure Child where
  generation : Nat
  running : Bool
  deriving DecidableEq

/-- A session of a pseudo terminal, with the generation of the request that opened it. -/
structure PtySession where
  generation : Nat
  output : List UInt8
  alive : Bool
  deriving DecidableEq

structure PtyBroker where
  sessions : OrdMap String PtySession
  poisoned : Bool

structure Machine where
  tree : FileTree
  cwd : FilePath
  children : OrdMap String Child
  pty : PtyBroker
  performed : List GuestRequest

/-- How a program ended: what it has left in the file tree, its exit code unless a signal or
the timeout ended it, and what it wrote. -/
structure ProgramRun where
  leaves : FileTree → FileTree
  exitCode : Option Int
  stdout : List UInt8
  stderr : List UInt8
  timedOut : Bool

structure Outside where
  uuid : String
  var : String → Option String
  spawn : List String → Option FilePath → List (String × String) → Nat → Except String ProgramRun
  ptySpawn : List String → Option FilePath → Nat → Nat → Except String Unit
  ptyWrite : List UInt8 → Except String Unit
  ioText : String
  base64Text : String

namespace PtyBroker

def empty : PtyBroker := ⟨.empty, false⟩

/-- `PtyError` as text. -/
def errorText (message : String) : String := "pty: " ++ message

/-- `none` is a panic: the lock of the sessions is poisoned. -/
def locked {α : Type} (b : PtyBroker) (next : PtyBroker × Option α) : PtyBroker × Option α :=
  if b.poisoned then (b, none) else next

def spawn (b : PtyBroker) (id : String) (generation : Nat) (started : Except String Unit) :
    PtyBroker × Option (Except String Unit) :=
  b.locked <|
    if (b.sessions.find? id).isSome then
      (b, some (.error (errorText ("session " ++ id ++ " already exists"))))
    else
      match started with
      | .error text => (b, some (.error (errorText text)))
      | .ok () => ({ b with sessions := b.sessions.insert id ⟨generation, [], true⟩ }, some (.ok ()))

def write (b : PtyBroker) (id : String) (written : Except String Unit) :
    PtyBroker × Option (Except String Unit) :=
  b.locked <|
    match b.sessions.find? id, written with
    | none, _ => (b, some (.error (errorText ("no session " ++ id))))
    | some _, .error text => (b, some (.error (errorText text)))
    | some _, .ok () => (b, some (.ok ()))

/-- The output from an offset on, the next offset, and whether the session is alive. -/
def read (b : PtyBroker) (id : String) (offset max : Nat) :
    PtyBroker × Option (Except String (List UInt8 × Nat × Bool)) :=
  b.locked <|
    match b.sessions.find? id with
    | none => (b, some (.error (errorText ("no session " ++ id))))
    | some session =>
      if offset + max < 2 ^ 64 then
        let stop := min (offset + max) session.output.length
        (b, some (.ok ((session.output.take stop).drop offset, stop, session.alive)))
      else ({ b with poisoned := true }, none)

def kill (b : PtyBroker) (id : String) : PtyBroker × Option (Except String Unit) :=
  b.locked ({ b with sessions := b.sessions.erase id }, some (.ok ()))

end PtyBroker

/-! ### The executor -/

/-- A registered process: its generation, and whether a fence has been set on it. -/
structure ProcHandle where
  generation : Nat
  fenced : Bool
  deriving DecidableEq

structure GuestExecutor where
  session : GuestSession
  fsRoots : List String
  procs : OrdMap String ProcHandle
  machine : Machine
  cache : IdempotencyCache

def procTimeoutDefaultMs : Nat := 120000

def procTimeoutMaxMs : Nat := 600000

/-- The variables a program sees although the request does not name them. -/
def ambientEnv (var : String → Option String) (requested : List (String × String)) :
    List (String × String) :=
  ["PATH", "HOME", "TEMP", "TMP", "SystemRoot", "COMSPEC"].filterMap (fun key =>
    if (requested.lookup key).isSome then none else (var key).map (key, ·))

namespace GuestExecutor

variable (e : GuestExecutor)

/-- `GuestExecutor::new` on a machine. -/
def new (task : String) (liveTokens fsRoots : List String) (tree : FileTree) (cwd : FilePath) :
    GuestExecutor where
  session := .new task liveTokens
  fsRoots := fsRoots
  procs := .empty
  machine := ⟨tree, cwd, .empty, .empty, []⟩
  cache := .empty

def revokeToken (token : String) : GuestExecutor :=
  { e with session := e.session.revokeToken token }

/-- The pass over the registered processes: those of an older generation are fenced and
killed. -/
def fence (target : Nat) : GuestExecutor :=
  { e with
    procs := e.procs.mapValues (fun h => if h.generation < target then { h with fenced := true } else h)
    machine.children := e.machine.children.filterMap (fun id child =>
      match e.procs.find? id with
      | some h => some (if h.generation < target then { child with running := false } else child)
      | none => some child) }

def setGeneration (target : Nat) : GuestExecutor := { e with session.generation := target }

def advanceGeneration (target : Nat) : GuestExecutor :=
  if target ≤ e.session.generation then e else (e.setGeneration target).fence target

/-! ### Processes -/

def startChild (procId : String) (generation : Nat) : GuestExecutor :=
  { e with machine.children := e.machine.children.insert procId ⟨generation, true⟩ }

def register (procId : String) (generation : Nat) : GuestExecutor :=
  { e with procs := e.procs.insert procId ⟨generation, false⟩ }

def stopChild (procId : String) : GuestExecutor :=
  { e with machine.children := e.machine.children.filterMap (fun id child =>
      some (if id = procId then { child with running := false } else child)) }

/-- The end of a registered process, seen by the loop that waits for it: the death of a process
with a fence on it belongs to the fence. -/
def endChild (procId : String) (run : ProgramRun) : GuestExecutor × Except GuestError GuestPayload :=
  ({ e with
      procs := e.procs.erase procId
      machine.tree := run.leaves e.machine.tree
      machine.children := e.machine.children.erase procId },
    if (e.procs.find? procId).any (·.fenced) then
      .error ⟨GuestErrorCodes.fenced, "proc " ++ procId ++ " fenced by generation advance"⟩
    else
      .ok (.proc procId (if run.timedOut then none else run.exitCode)
        (String.ofList (Utf8.lossy run.stdout)) (String.ofList (Utf8.lossy run.stderr))
        run.timedOut run.timedOut))

/-- The part of `run_child` up to the started process. -/
def spawnChild (o : Outside) (procId : String) (generation : Nat) (argv : List String)
    (cwd : Option FilePath) (env : List (String × String)) (timeout : Nat) :
    GuestExecutor × Except GuestError (String × ProgramRun) :=
  match o.spawn argv cwd (ambientEnv o.var env ++ env) timeout with
  | .error text =>
    (e, .error ⟨GuestErrorCodes.badRequest,
      "spawn " ++ Text.debugStr (argv.headD "") ++ ": " ++ text⟩)
  | .ok run => (e.startChild procId generation, .ok (procId, run))

/-! ### Operations -/

def pathAllowed (raw : String) : Except GuestError FilePath :=
  ensurePathAllowed e.machine.tree e.machine.cwd e.fsRoots raw

/-- The working directory of a request, checked if there is one. -/
def cwdAllowed : Option String → Except GuestError (Option FilePath)
  | none => .ok none
  | some raw => (e.pathAllowed raw).map some

def emptyArgv : GuestError := ⟨GuestErrorCodes.badRequest, "empty argv"⟩

def badBase64 (o : Outside) : GuestError :=
  ⟨GuestErrorCodes.badRequest, "bad base64 payload: " ++ o.base64Text⟩

def guestVersion : String := "0.1.0"

def startProc (o : Outside) (generation : Nat) (argv : List String) (cwd : Option String)
    (env : List (String × String)) (timeoutMs : Option Nat) :
    GuestExecutor × Except GuestError (String × ProgramRun) :=
  if argv = [] then (e, .error emptyArgv)
  else
    match e.cwdAllowed cwd with
    | .error error => (e, .error error)
    | .ok cwd =>
      e.spawnChild o ("proc-" ++ o.uuid) generation argv cwd env
        (min (timeoutMs.getD procTimeoutDefaultMs) procTimeoutMaxMs)

/-- A started process is registered, and its end is waited for. -/
def procExec (o : Outside) (generation : Nat) (argv : List String) (cwd : Option String)
    (env : List (String × String)) (timeoutMs : Option Nat) :
    GuestExecutor × Except GuestError GuestPayload :=
  match e.startProc o generation argv cwd env timeoutMs with
  | (e, .error error) => (e, .error error)
  | (e, .ok (procId, run)) => (e.register procId generation).endChild procId run

def procKill (procId : String) : GuestExecutor × Except GuestError GuestPayload :=
  match e.procs.find? procId with
  | some _ => (e.stopChild procId, .ok .accepted)
  | none => (e, .error ⟨GuestErrorCodes.notFound, "no proc " ++ Text.debugStr procId⟩)

def fsRead (o : Outside) (path : String) : Except GuestError GuestPayload :=
  match e.pathAllowed path with
  | .error error => .error error
  | .ok resolved =>
    match e.machine.tree.read resolved with
    | none => .error ⟨GuestErrorCodes.notFound, "read " ++ Text.debugStr path ++ ": " ++ o.ioText⟩
    | some bytes => .ok (.data (Base64.encode bytes) (Sha256.hex bytes))

def fsWrite (o : Outside) (path bytesBase64 : String) :
    GuestExecutor × Except GuestError GuestPayload :=
  match e.pathAllowed path with
  | .error error => (e, .error error)
  | .ok resolved =>
    match Base64.decode bytesBase64 with
    | none => (e, .error (badBase64 o))
    | some bytes =>
      match e.machine.tree.writeMaking resolved bytes with
      | (tree, true) => ({ e with machine.tree := tree }, .ok .accepted)
      | (tree, false) =>
        ({ e with machine.tree := tree }, .error ⟨GuestErrorCodes.policyDenied,
          "write " ++ Text.debugStr path ++ ": " ++ o.ioText⟩)

/-- `fs::read_dir`, the names sorted. -/
def listDir (t : FileTree) (p : FilePath) : Option (List String) :=
  match t.canonicalize p with
  | none => none
  | some q => if t.node q = some .dir then some ((t.children q).mergeSort (· ≤ ·)) else none

def fsList (o : Outside) (path : String) : Except GuestError GuestPayload :=
  match e.pathAllowed path with
  | .error error => .error error
  | .ok resolved =>
    match listDir e.machine.tree resolved with
    | none => .error ⟨GuestErrorCodes.notFound, "list " ++ Text.debugStr path ++ ": " ++ o.ioText⟩
    | some entries => .ok (.listing entries)

/-- The answer of a terminal operation, an error of the broker under a code. -/
def ptyAnswer {α : Type} (code : String) (next : α → GuestPayload)
    (done : PtyBroker × Option (Except String α)) :
    GuestExecutor × Option (Except GuestError GuestPayload) :=
  ({ e with machine.pty := done.1 }, done.2.map (fun
    | .error text => .error ⟨code, text⟩
    | .ok a => .ok (next a)))

def ptyOpen (o : Outside) (generation : Nat) (argv : List String) (cwd : Option String)
    (cols rows : Nat) : GuestExecutor × Option (Except GuestError GuestPayload) :=
  if argv = [] then (e, some (.error emptyArgv))
  else
    match e.cwdAllowed cwd with
    | .error error => (e, some (.error error))
    | .ok cwd =>
      let ptyId := "pty-" ++ o.uuid
      e.ptyAnswer GuestErrorCodes.internal (fun _ => .pty ptyId "" 0 true)
        (e.machine.pty.spawn ptyId generation (o.ptySpawn argv cwd rows cols))

def ptyWrite (o : Outside) (ptyId bytesBase64 : String) :
    GuestExecutor × Option (Except GuestError GuestPayload) :=
  match Base64.decode bytesBase64 with
  | none => (e, some (.error (badBase64 o)))
  | some bytes =>
    e.ptyAnswer GuestErrorCodes.notFound (fun _ => .accepted)
      (e.machine.pty.write ptyId (o.ptyWrite bytes))

def ptyRead (ptyId : String) (offset max : Nat) :
    GuestExecutor × Option (Except GuestError GuestPayload) :=
  e.ptyAnswer GuestErrorCodes.notFound
    (fun (bytes, next, alive) => .pty ptyId (Base64.encode bytes) next alive)
    (e.machine.pty.read ptyId offset max)

def ptyKill (ptyId : String) : GuestExecutor × Option (Except GuestError GuestPayload) :=
  e.ptyAnswer GuestErrorCodes.notFound (fun _ => .accepted) (e.machine.pty.kill ptyId)

/-- `dispatch_inner`. -/
def carryOut (o : Outside) (req : GuestRequest) :
    GuestExecutor × Option (Except GuestError GuestPayload) :=
  match req.op with
  | .ping => (e, some (.ok (.pong guestVersion guestProtocolMajor guestProtocolMinor)))
  | .procExec argv cwd env timeoutMs =>
    let done := e.procExec o req.generation argv cwd env timeoutMs
    (done.1, some done.2)
  | .procKill procId => let done := e.procKill procId; (done.1, some done.2)
  | .fsRead path => (e, some (e.fsRead o path))
  | .fsWrite path bytesBase64 => let done := e.fsWrite o path bytesBase64; (done.1, some done.2)
  | .fsList path => (e, some (e.fsList o path))
  | .ptyOpen argv cwd cols rows => e.ptyOpen o req.generation argv cwd cols rows
  | .ptyWrite ptyId bytesBase64 => e.ptyWrite o ptyId bytesBase64
  | .ptyRead ptyId offset max => e.ptyRead ptyId offset max
  | .ptyKill ptyId => e.ptyKill ptyId

/-! ### Requests -/

/-- An operation is begun: the record of what the machine has performed. -/
def perform (req : GuestRequest) : GuestExecutor :=
  { e with machine.performed := e.machine.performed ++ [req] }

def dispatch (o : Outside) (req : GuestRequest) : GuestExecutor × Option GuestResponse :=
  let done := (e.perform req).carryOut o req
  (done.1, done.2.map (GuestResponse.of req.requestId))

def isFence (response : GuestResponse) : Bool :=
  match response.outcome with
  | .err error => error.code = GuestErrorCodes.fenced
  | .ok _ => false

def remember (response : GuestResponse) (id : String) : GuestExecutor :=
  if isFence response then e else { e with cache := e.cache.put id response }

def dispatchAndCache (o : Outside) (req : GuestRequest) : GuestExecutor × Option GuestResponse :=
  match e.dispatch o req with
  | (e, none) => (e, none)
  | (e, some response) => (e.remember response req.requestId, some response)

def execute (o : Outside) (req : GuestRequest) : GuestExecutor × Option GuestResponse :=
  match e.cache.get req.requestId with
  | some cached => (e, some cached)
  | none =>
    if e.session.generation < req.generation then
      (e.advanceGeneration req.generation).dispatchAndCache o req
    else
      match gate e.session req with
      | .error error => (e, some ⟨req.requestId, .err error⟩)
      | .ok () => e.dispatchAndCache o req

/-! ### What an operation leaves alone -/

/-- The session, the grants, the cache and the record are the same. -/
structure Frame (e e' : GuestExecutor) : Prop where
  session : e'.session = e.session
  fsRoots : e'.fsRoots = e.fsRoots
  cache : e'.cache = e.cache
  performed : e'.machine.performed = e.machine.performed

variable {e}

theorem Frame.refl : Frame e e := ⟨rfl, rfl, rfl, rfl⟩

theorem frame_startProc (o : Outside) (generation : Nat) (argv : List String) (cwd : Option String)
    (env : List (String × String)) (timeoutMs : Option Nat) :
    Frame e (e.startProc o generation argv cwd env timeoutMs).1 := by
  rw [startProc]
  split
  · exact .refl
  · split
    · exact .refl
    · rw [spawnChild]
      split
      · exact .refl
      · exact ⟨rfl, rfl, rfl, rfl⟩

theorem frame_procExec (o : Outside) (generation : Nat) (argv : List String) (cwd : Option String)
    (env : List (String × String)) (timeoutMs : Option Nat) :
    Frame e (e.procExec o generation argv cwd env timeoutMs).1 := by
  have hstart := frame_startProc (e := e) o generation argv cwd env timeoutMs
  rw [procExec]
  split
  · next e' error heq =>
    rw [heq] at hstart
    exact hstart
  · next e' procId run heq =>
    rw [heq] at hstart
    exact ⟨hstart.session, hstart.fsRoots, hstart.cache, hstart.performed⟩

theorem frame_procKill (procId : String) : Frame e (e.procKill procId).1 := by
  rw [procKill]
  split
  · exact ⟨rfl, rfl, rfl, rfl⟩
  · exact .refl

theorem frame_fsWrite (o : Outside) (path bytesBase64 : String) :
    Frame e (e.fsWrite o path bytesBase64).1 := by
  rw [fsWrite]
  split
  · exact .refl
  · split
    · exact .refl
    · split
      · exact ⟨rfl, rfl, rfl, rfl⟩
      · exact ⟨rfl, rfl, rfl, rfl⟩

theorem frame_ptyAnswer {α : Type} (code : String) (next : α → GuestPayload)
    (done : PtyBroker × Option (Except String α)) : Frame e (e.ptyAnswer code next done).1 :=
  ⟨rfl, rfl, rfl, rfl⟩

theorem frame_ptyOpen (o : Outside) (generation : Nat) (argv : List String) (cwd : Option String)
    (cols rows : Nat) : Frame e (e.ptyOpen o generation argv cwd cols rows).1 := by
  rw [ptyOpen]
  split
  · exact .refl
  · split
    · exact .refl
    · exact frame_ptyAnswer _ _ _

theorem frame_ptyWrite (o : Outside) (ptyId bytesBase64 : String) :
    Frame e (e.ptyWrite o ptyId bytesBase64).1 := by
  rw [ptyWrite]
  split
  · exact .refl
  · exact frame_ptyAnswer _ _ _

theorem frame_carryOut (o : Outside) (req : GuestRequest) : Frame e (e.carryOut o req).1 := by
  rw [carryOut]
  cases req.op with
  | procExec argv cwd env timeoutMs => exact frame_procExec _ _ _ _ _ _
  | procKill procId => exact frame_procKill procId
  | fsRead path => exact .refl
  | fsWrite path bytesBase64 => exact frame_fsWrite _ _ _
  | fsList path => exact .refl
  | ptyOpen argv cwd cols rows => exact frame_ptyOpen _ _ _ _ _ _
  | ptyWrite ptyId bytesBase64 => exact frame_ptyWrite _ _ _
  | ptyRead ptyId offset max => exact frame_ptyAnswer _ _ _
  | ptyKill ptyId => exact frame_ptyAnswer _ _ _
  | ping => exact .refl

end GuestExecutor

end Modbit.Sandbox
