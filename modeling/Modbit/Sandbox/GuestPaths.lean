import Modbit.Lib.OrdMap
import Modbit.Lib.Text
import Modbit.Lib.TreeWalk
import Mathlib.Data.String.Basic

/-!
# The paths of a guest

`crates/protocol/src/guest.rs`: the requests a host sends to the guest agent and the answers it
gets.

`ensure_path_allowed` in `crates/sandbox/src/guest.rs`.  A path is normalized by its text, `..`
taking a name away, and only then are links followed.  Of a path that leads to nothing the deepest
ancestor that is there is resolved, and the missing names are put back behind it.  The result has
to be under one of the granted roots; a root that is there is resolved too, and any other is
compared by its text.  A path is relative to the working directory of the guest agent, and a path
without names is no path for the operating system.
-/

namespace Modbit.Sandbox

open Lib

inductive GuestOp where
  | procExec (argv : List String) (cwd : Option String) (env : List (String × String))
      (timeoutMs : Option Nat)
  | procKill (procId : String)
  | fsRead (path : String)
  | fsWrite (path : String) (bytesBase64 : String)
  | fsList (path : String)
  | ptyOpen (argv : List String) (cwd : Option String) (cols rows : Nat)
  | ptyWrite (ptyId : String) (bytesBase64 : String)
  | ptyRead (ptyId : String) (offset max : Nat)
  | ptyKill (ptyId : String)
  | ping
  deriving DecidableEq

def GuestOp.effectClass : GuestOp → String
  | procExec .. => "proc.exec"
  | procKill _ => "proc.kill"
  | fsRead _ => "fs.read"
  | fsWrite .. => "fs.write"
  | fsList _ => "fs.list"
  | ptyOpen .. => "pty.open"
  | ptyWrite .. => "pty.write"
  | ptyRead .. => "pty.read"
  | ptyKill _ => "pty.kill"
  | ping => "session.ping"

def guestEffectClasses : List String :=
  ["proc.exec", "proc.kill", "fs.read", "fs.write", "fs.list", "pty.open", "pty.write", "pty.read",
    "pty.kill", "session.ping"]

def guestRpcVersion : Nat := 1

def guestProtocolMajor : Nat := 1

def guestProtocolMinor : Nat := 0

structure GuestRequest where
  requestId : String
  rpcVersion : Nat
  task : String
  capabilityToken : String
  effectClass : String
  generation : Nat
  op : GuestOp
  deriving DecidableEq

inductive GuestPayload where
  | proc (procId : String) (exitCode : Option Int) (stdout stderr : String) (timedOut killed : Bool)
  | data (bytesBase64 : String) (sha256 : String)
  | listing (entries : List String)
  | pty (ptyId : String) (bytesBase64 : String) (offset : Nat) (alive : Bool)
  | accepted
  | pong (guestVersion : String) (protocolMajor protocolMinor : Nat)
  deriving DecidableEq

structure GuestError where
  code : String
  message : String
  deriving DecidableEq

namespace GuestErrorCodes

def version : String := "version"
def staleCapability : String := "stale_capability"
def unknownCapability : String := "unknown_capability"
def fenced : String := "fenced"
def wrongTask : String := "wrong_task"
def policyDenied : String := "policy_denied"
def notFound : String := "not_found"
def badRequest : String := "bad_request"
def internal : String := "internal"

end GuestErrorCodes

inductive GuestOutcome where
  | ok (payload : GuestPayload)
  | err (error : GuestError)
  deriving DecidableEq

structure GuestResponse where
  requestId : String
  outcome : GuestOutcome
  deriving DecidableEq

def GuestResponse.of (requestId : String) : Except GuestError GuestPayload → GuestResponse
  | .ok payload => ⟨requestId, .ok payload⟩
  | .error error => ⟨requestId, .err error⟩

/-- A path by its components, without the `.`. -/
def parsePath (raw : String) : LinkTarget where
  absolute := Text.startsWith raw "/"
  parts := ((Text.split '/' raw).filter (fun c => c ≠ "" ∧ c ≠ ".")).map
    (fun c => if c = ".." then .up else .name c)

/-- A text that can only name a directory: it ends in a slash or in `.`. -/
def namesDir (raw : String) : Bool :=
  (Text.split '/' raw).getLast? = some "" ∨ (Text.split '/' raw).getLast? = some "."

/-- The loop over the components: `..` takes the last name away, if there is one. -/
def normalize : FilePath → List LinkPart → Option FilePath
  | names, [] => some names
  | names, .up :: parts => if names = [] then none else normalize names.dropLast parts
  | names, .name s :: parts => normalize (names ++ [s]) parts

section Resolution

variable (t : FileTree) (cwd : FilePath)

/-- Where the components of a path lead to, from the root or from the working directory. -/
def follow (absolute : Bool) (parts : List LinkPart) : Option FilePath :=
  if absolute then t.walk FileTree.maxLinks [] parts
  else if t.node cwd = some .dir then t.walk FileTree.maxLinks cwd parts
  else none

/-- `fs::canonicalize` of a normalized path. -/
def canonicalizeFrom (absolute : Bool) (names : FilePath) : Option FilePath :=
  if absolute = false ∧ names = [] then none
  else (follow t cwd absolute (names.map .name)).filter (fun q => (t.node q).isSome)

/-- The loop over the ancestors, the names given from the last one on: the missing names are
put back behind the first ancestor that is there. -/
def reattach (canonical : FilePath → Option FilePath) : List String → List String → Option FilePath
  | [], _ => none
  | name :: up, tail =>
    match canonical up.reverse with
    | some anc => some (anc ++ name :: tail)
    | none => reattach canonical up (name :: tail)

def resolveFrom (absolute : Bool) (names : FilePath) : Option FilePath :=
  match canonicalizeFrom t cwd absolute names with
  | some p => some p
  | none => reattach (canonicalizeFrom t cwd absolute) names.reverse []

/-- `Path::canonicalize` of a root, if it is there. -/
def rootLocation (root : String) : Option FilePath :=
  if root = "" then none
  else (follow t cwd (parsePath root).absolute (parsePath root).parts).filter
    (fun q => if namesDir root then t.node q = some .dir else (t.node q).isSome)

/-- `Path::starts_with` of a resolved path and a root by its text.  A path without components
starts every path. -/
def startsWithText (resolved : FilePath) (root : String) : Prop :=
  root = "" ∨ ((parsePath root).absolute = true ∧ (parsePath root).parts <+: resolved.map .name)

instance (resolved : FilePath) (root : String) : Decidable (startsWithText resolved root) :=
  inferInstanceAs (Decidable (_ ∨ _))

/-- `resolved.starts_with(&root_canon)`. -/
def admits (resolved : FilePath) (root : String) : Prop :=
  match rootLocation t cwd root with
  | some location => location <+: resolved
  | none => startsWithText resolved root

instance (resolved : FilePath) (root : String) : Decidable (admits t cwd resolved root) := by
  unfold admits
  split <;> infer_instance

def denied (raw : String) : GuestError :=
  ⟨GuestErrorCodes.policyDenied,
    "path " ++ Text.debugStr raw ++ " is outside the granted guest fs roots"⟩

def ensurePathAllowed (fsRoots : List String) (raw : String) : Except GuestError FilePath :=
  match normalize [] (parsePath raw).parts with
  | none => .error (denied raw)
  | some names =>
    match resolveFrom t cwd (parsePath raw).absolute names with
    | none => .error (denied raw)
    | some resolved =>
      if ∃ root ∈ fsRoots, admits t cwd resolved root then .ok resolved else .error (denied raw)

end Resolution

/-! ### What is resolved -/

variable {t : FileTree} {cwd : FilePath} {fsRoots : List String} {raw : String} {p : FilePath}

theorem ensurePathAllowed_eq_ok :
    ensurePathAllowed t cwd fsRoots raw = .ok p ↔
      ∃ names, normalize [] (parsePath raw).parts = some names ∧
        resolveFrom t cwd (parsePath raw).absolute names = some p ∧
        ∃ root ∈ fsRoots, admits t cwd p root := by
  rw [ensurePathAllowed]
  cases normalize [] (parsePath raw).parts with
  | none => simp
  | some names =>
    cases hres : resolveFrom t cwd (parsePath raw).absolute names with
    | none => simp [hres]
    | some resolved =>
      dsimp only
      rw [hres]
      dsimp only
      constructor
      · intro h
        split_ifs at h with hroot
        obtain rfl := Except.ok.inj h
        exact ⟨names, rfl, hres, hroot⟩
      · rintro ⟨names', hn, hres', hroot⟩
        obtain rfl := Option.some.inj hn
        rw [hres] at hres'
        obtain rfl := Option.some.inj hres'
        rw [if_pos hroot]

end Modbit.Sandbox
