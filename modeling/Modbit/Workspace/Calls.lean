import Modbit.Workspace.ChangeEngine
import Modbit.Lib.Run

/-!
# Calls of the service

`Call` is a call of any client, `step` what the service does with it.  Clients take turns:
a run is a list of calls.  `Mutates` is that a call changed a file, `Touches` that it may
change it, as the paths and the tree before it say; `fileAt_step` is the frame: what a
call does not touch it leaves as it is.
-/

namespace Modbit

open Lib

namespace Workspace

open WorkspaceFileService (PatchHunk)

inductive Call where
  | create (path : String) (bytes : List UInt8)
  | read (path : String)
  | replace (path : String) (bytes : List UInt8) (expectedRevision : Nat)
  | applyPatch (path : String) (expectedRevision : Nat) (hunks : List PatchHunk)
  | applyTransaction (edits : List EditOp)
  | adopt (path : String)
  | delete (path : String)
  | moveFile (source target : String)

inductive Reply where
  | bytes (answer : Except WorkspaceError (List UInt8 × Nat))
  | revision (answer : Except WorkspaceError Nat)
  | revisions (answer : Outcome (List (String × Nat)))
  deriving DecidableEq

def Reply.ok : Reply → Bool
  | .bytes (.ok _) | .revision (.ok _) | .revisions (some (.ok _)) => true
  | _ => false

namespace WorkspaceFileService

def step (s : WorkspaceFileService) : Call → WorkspaceFileService × Reply
  | .create path bytes => ((s.create path bytes).1, .revision (s.create path bytes).2)
  | .read path => (s, .bytes (s.read path))
  | .replace path bytes expected =>
    ((s.replace path bytes expected).1, .revision (s.replace path bytes expected).2)
  | .applyPatch path expected hunks =>
    ((s.applyPatch path expected hunks).1, .revision (s.applyPatch path expected hunks).2)
  | .applyTransaction edits =>
    ((s.applyTransaction edits).1, .revisions (s.applyTransaction edits).2)
  | .adopt path => ((s.adopt path).1, .revision (s.adopt path).2)
  | .delete path => ((s.delete path).1, .revision (s.delete path).2)
  | .moveFile source target =>
    ((s.moveFile source target).1, .revision (s.moveFile source target).2)

/-- The tree with the directories that a call makes before it writes. -/
def ground (s : WorkspaceFileService) : Call → FileTree
  | .create path _ | .replace path _ _ | .applyPatch path _ _ | .moveFile _ path =>
    match s.resolve path with
    | .error _ => s.tree
    | .ok resolved => (s.tree.createDirAll resolved.dropLast).getD s.tree
  | .read _ | .adopt _ | .applyTransaction _ | .delete _ => s.tree

end WorkspaceFileService

def Call.paths : Call → List String
  | .create path _ | .replace path _ _ | .applyPatch path _ _ | .delete path => [path]
  | .applyTransaction edits => edits.map EditOp.path
  | .moveFile source target => [source, target]
  | .read _ | .adopt _ => []

def Call.texts : Call → List String
  | .read path | .adopt path => [path]
  | c => c.paths

/-- The paths in the file system that a call on a resolved path works on: itself, and its
temporary. -/
def Call.workFiles (c : Call) (resolved : FilePath) : List FilePath :=
  match c with
  | .replace .. | .applyPatch .. => [resolved, FilePath.withExtension "modbit-tmp" resolved]
  | .applyTransaction _ => [resolved, WorkspaceFileService.txnTmp resolved]
  | _ => [resolved]

def Call.moves : Call → Bool
  | .moveFile .. => true
  | _ => false

/-- The paths in the file system a call works on for one of its paths. -/
def WorkspaceFileService.works (s : WorkspaceFileService) (c : Call) (path : String) :
    List FilePath :=
  match s.resolve path with
  | .error _ => []
  | .ok resolved => c.workFiles resolved

/-- A call may change what is at a location: one of its paths names it, or it works there,
or it moves something above it. -/
def Touches (s : WorkspaceFileService) (c : Call) (f : FilePath) : Prop :=
  ∃ path ∈ c.paths, s.location path = some f ∨ ∃ work ∈ s.works c path,
    (s.ground c).entry work = some f ∨ (s.ground c).place work = some f ∨
      c.moves = true ∧ ∃ e ∈ (s.ground c).entry work, e <+: f

instance (s : WorkspaceFileService) (c : Call) (f : FilePath) : Decidable (Touches s c f) :=
  inferInstanceAs (Decidable (∃ path ∈ c.paths, _))

/-- A call changed the file at a location: it succeeded, and names the file or left other
bytes in it. -/
def Mutates (s : WorkspaceFileService) (c : Call) (f : FilePath) : Prop :=
  (s.step c).2.ok = true ∧ ((∃ path ∈ c.paths, s.location path = some f) ∨
    (s.step c).1.tree.fileAt f ≠ s.tree.fileAt f)

end Workspace

end Modbit
