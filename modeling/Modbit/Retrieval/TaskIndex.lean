import Modbit.Lib.Sha256
import Modbit.Lib.Utf8
import Modbit.Retrieval.Dependencies

/-!
# The task index

`buildAt` builds the index of a worktree from what the walker takes.  `applyDelta` brings
it up to date with a list of changed paths: it reads these, under a narrower rule than
the walker's, and resolves their imports again.

The lexical index and the symbols are left out: they are fed the same files.
-/

namespace Modbit

open Lib

namespace Retrieval

open Merkle (MerkleIndex Recomputed Files)

/-! ### Files -/

structure FileEntry where
  sha256 : String
  byteLength : Nat
  lineCount : Nat
  indexedAtRevision : Nat
  deriving DecidableEq

structure RepositoryIndex where
  workspaceRevision : Nat
  files : OrdMap String FileEntry
  lines : OrdMap String (List (List Char))

def linesOf (bytes : List UInt8) : List (List Char) := Text.lines (Utf8.lossy bytes)

def fileEntry (revision : Nat) (bytes : List UInt8) : FileEntry :=
  ⟨Sha256.hex bytes, bytes.length, (linesOf bytes).length, revision⟩

namespace RepositoryIndex

def new (workspaceRevision : Nat) : RepositoryIndex := ⟨workspaceRevision, .empty, .empty⟩

def indexFile (r : RepositoryIndex) (path : String) (bytes : List UInt8) (revision : Nat) :
    RepositoryIndex :=
  ⟨revision, r.files.insert path (fileEntry revision bytes), r.lines.insert path (linesOf bytes)⟩

def removeFile (r : RepositoryIndex) (path : String) : RepositoryIndex :=
  ⟨r.workspaceRevision, r.files.erase path, r.lines.erase path⟩

end RepositoryIndex

/-! ### The index -/

structure IndexChange where
  path : String
  deleted : Bool
  deriving DecidableEq

structure TaskIndex where
  merkle : MerkleIndex
  repo : RepositoryIndex
  deps : DependencyIndex
  indexedWorkspaceRevision : Nat

/-- Whether a path is gone by the last change that names it. -/
def latest (changes : List IndexChange) : OrdMap String Bool :=
  changes.foldl (fun m c => m.insert c.path c.deleted) .empty

/-- The bytes of a changed path; none if it is tombstoned, cannot be read or is binary. -/
def reread {root : FilePath} (w : Worktree root) (path : String) (tombstoned : Bool) :
    Option (List UInt8) :=
  if tombstoned then none else (w.readPath path).filter isIndexable

def changedFiles {root : FilePath} (w : Worktree root) (changes : List IndexChange) : Files :=
  (latest changes).filterMap (reread w)

def deletedPaths {root : FilePath} (w : Worktree root) (changes : List IndexChange) :
    List String :=
  ((latest changes).entries.filter (fun e => (reread w e.1 e.2).isNone)).map Prod.fst

namespace TaskIndex

section

variable (ignores : List String → IgnoreMatch)
  (parse : Lang → List UInt8 → List (String × DepKind)) {root : FilePath}

def buildAt (w : Worktree root) (workspaceRevision : Nat) : TaskIndex :=
  let owned := walkWorktree ignores w
  { merkle := Merkle.build Sha256.hex owned workspaceRevision
    repo := owned.entries.foldl (fun r e => r.indexFile e.1 e.2 workspaceRevision)
      (.new workspaceRevision)
    deps := owned.entries.foldl (fun d e => d.indexFile parse e.1 e.2 owned.keys) .empty
    indexedWorkspaceRevision := workspaceRevision }

/-- The files after the changed ones are indexed and the deleted ones removed. -/
def refreshRepo (index : TaskIndex) (changed : Files) (deleted : List String)
    (newRevision : Nat) : RepositoryIndex :=
  deleted.foldl RepositoryIndex.removeFile
    (changed.entries.foldl (fun r e => r.indexFile e.1 e.2 newRevision) index.repo)

/-- The edges of the changed files extracted again, those of the deleted ones dropped, and
those to files that are gone pruned. -/
def refreshDeps (index : TaskIndex) (changed : Files) (deleted known : List String) :
    DependencyIndex :=
  (deleted.foldl DependencyIndex.removeFile
    (changed.entries.foldl (fun d e => d.indexFile parse e.1 e.2 known) index.deps)).prune known

def applyDelta (index : TaskIndex) (w : Worktree root) (changes : List IndexChange)
    (newRevision : Nat) : TaskIndex × List Recomputed :=
  let changed := changedFiles w changes
  let deleted := deletedPaths w changes
  let (merkle, recomputed) := index.merkle.applyChanges Sha256.hex ⟨changed, deleted, newRevision⟩
  let repo := index.refreshRepo changed deleted newRevision
  let deps := index.refreshDeps parse changed deleted repo.files.keys
  (⟨merkle, { repo with workspaceRevision := newRevision }, deps, newRevision⟩, recomputed)

end

end TaskIndex

end Retrieval

end Modbit
