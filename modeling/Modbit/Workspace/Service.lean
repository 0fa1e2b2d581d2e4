import Modbit.Lib.FileTree
import Modbit.Lib.Sha256
import Modbit.Lib.Text
import Modbit.Lib.Utf8
import Mathlib.Data.List.Sort

/-!
# The workspace file service

Files live in a tree with symbolic links; the ledger holds a revision and a digest for
every path text it was given, deleted ones included, and the journal the events the
operations emit.  An operation of the file system that fails ends the call, with what was
done before it left as it is.

The service keeps its ledger and its journal in files of its own under `.modbit`; here
they are fields of its state, and the tree is that of the other files.  What is proved of a
call is said where these files can be written (`KeepsBooks`) and the call's paths do not
lead to them (`Outside`).
-/

namespace Modbit

open Lib

namespace Workspace

/-! ### Ledger and journal -/

inductive WorkspaceError where
  | outsideRoot (path : String)
  | pathNotFound (path : String)
  | alreadyExists (path : String)
  | staleRevision (path : String) (expected actual : Nat)
  | patchMismatch (path : String) (line : Nat)
  | io
  deriving DecidableEq

structure FileRecord where
  revision : Nat
  sha256 : String
  byteLength : Nat
  deleted : Bool
  deriving DecidableEq

/-- The ledger.  Every record has been written at least once. -/
structure RevisionMap where
  workspaceRevision : Nat
  files : OrdMap String FileRecord
  positive : ∀ path r, files.find? path = some r → 0 < r.revision

namespace RevisionMap

def empty : RevisionMap := ⟨0, .empty, fun _ _ h => by cases h⟩

def set (m : RevisionMap) (path : String) (r : FileRecord) (h : 0 < r.revision) : RevisionMap where
  workspaceRevision := m.workspaceRevision + 1
  files := m.files.insert path r
  positive := by
    intro p r' hr'
    rw [OrdMap.find?_insert] at hr'
    split_ifs at hr'
    · rw [← Option.some.inj hr']
      exact h
    · exact m.positive p r' hr'

def live (m : RevisionMap) (path : String) : Option FileRecord :=
  (m.files.find? path).filter (fun r => !r.deleted)

/-- The record of a path, or the fresh one that `or_insert_with` makes. -/
def entry (m : RevisionMap) (path : String) : FileRecord :=
  (m.files.find? path).getD ⟨0, "", 0, false⟩

def record (m : RevisionMap) (path : String) (bytes : List UInt8) : RevisionMap :=
  m.set path ⟨(m.entry path).revision + 1, Sha256.hex bytes, bytes.length, false⟩
    (Nat.succ_pos _)

def bury (m : RevisionMap) (path : String) : RevisionMap :=
  m.set path ⟨(m.entry path).revision + 1, "", 0, true⟩ (Nat.succ_pos _)

/-- The record of a moved path, carried to its new one. -/
def carry (m : RevisionMap) (source target : String) : RevisionMap :=
  let moved : FileRecord := { m.entry source with
    revision := (m.entry source).revision + 1, deleted := true }
  { m.set source moved (Nat.succ_pos _) with
    files := (m.files.insert source moved).insert target { moved with deleted := false }
    positive := by
      intro p r hr
      rw [OrdMap.find?_insert] at hr
      split_ifs at hr
      · rw [← Option.some.inj hr]
        exact Nat.succ_pos _
      · exact (m.set source moved (Nat.succ_pos _)).positive p r hr }

variable (m : RevisionMap)

theorem entry_set (path : String) (r : FileRecord) (h : 0 < r.revision)
    (k : String) : (m.set path r h).entry k = if k = path then r else m.entry k := by
  show ((m.files.insert path r).find? k).getD _ = _
  rw [OrdMap.find?_insert]
  split_ifs
  · rfl
  · rfl

theorem entry_carry (source target k : String) :
    (m.carry source target).entry k =
      if k = target then { m.entry source with
        revision := (m.entry source).revision + 1, deleted := false }
      else if k = source then { m.entry source with
        revision := (m.entry source).revision + 1, deleted := true }
      else m.entry k := by
  show (((m.files.insert source _).insert target _).find? k).getD _ = _
  rw [OrdMap.find?_insert, OrdMap.find?_insert]
  split_ifs
  · rfl
  · rfl
  · rfl

theorem live_set (path : String) (r : FileRecord) (h : 0 < r.revision) (k : String) :
    (m.set path r h).live k
      = if k = path then (some r).filter (fun r => !r.deleted) else m.live k := by
  show ((m.files.insert path r).find? k).filter _ = _
  rw [OrdMap.find?_insert]
  split_ifs
  · rfl
  · rfl

theorem live_record (path : String) (bytes : List UInt8) (k : String) :
    (m.record path bytes).live k = if k = path then
      some ⟨(m.entry path).revision + 1, Sha256.hex bytes, bytes.length, false⟩
    else m.live k := live_set m path _ _ k

theorem live_bury (path k : String) :
    (m.bury path).live k = if k = path then none else m.live k := live_set m path _ _ k

theorem live_carry (source target k : String) :
    (m.carry source target).live k =
      if k = target then some { m.entry source with
        revision := (m.entry source).revision + 1, deleted := false }
      else if k = source then none else m.live k := by
  show (((m.files.insert source _).insert target _).find? k).filter _ = _
  rw [OrdMap.find?_insert, OrdMap.find?_insert]
  split_ifs
  · rfl
  · rfl
  · rfl

end RevisionMap

inductive FileChangeKind where
  | created | modified | deleted
  deriving DecidableEq

structure FileChangeEvent where
  path : String
  changeKind : FileChangeKind
  fileRevision : Nat
  workspaceRevision : Nat
  sha256 : String
  prevSha256 : String
  deriving DecidableEq

structure WorkspaceFileService where
  root : FilePath
  tree : FileTree
  revisions : RevisionMap
  journal : List FileChangeEvent

namespace WorkspaceFileService

variable (s : WorkspaceFileService)

/-- The entry appended for a path, with the digest the ledger has by then. -/
def emitEvent (path : String) (kind : FileChangeKind) (rev : Nat) (prevSha256 : String) :
    WorkspaceFileService :=
  { s with journal := s.journal ++
      [⟨path, kind, rev, s.revisions.workspaceRevision, (s.revisions.entry path).sha256,
        prevSha256⟩] }

def fileRevision (path : String) : Option Nat := (s.revisions.live path).map (·.revision)

/-! ### Paths -/

/-- The components of a relative path, without `.`. -/
def components (relative : String) : List String :=
  (Text.split '/' relative).filter (fun c => c ≠ "" ∧ c ≠ ".")

/-- `canonical.starts_with(root.canonicalize()?)`. -/
def contained (relative : String) (canonical : FilePath) : Except WorkspaceError Unit :=
  match s.tree.canonicalize s.root with
  | none => .error .io
  | some root => if root <+: canonical then .ok () else .error (.outsideRoot relative)

/-- The innermost existing path above a path, canonical. -/
def deepestExisting (t : FileTree) (p : FilePath) : Option FilePath :=
  (p.inits.reverse.find? t.has).bind t.canonicalize

def resolve (relative : String) : Except WorkspaceError FilePath :=
  if Text.startsWith relative "/" then .error (.outsideRoot relative)
  else if ".." ∈ components relative then .error (.outsideRoot relative)
  else
    let resolved := s.root ++ components relative
    match s.tree.canonicalize resolved with
    | some canonical => (s.contained relative canonical).map (fun _ => canonical)
    | none =>
      match deepestExisting s.tree resolved with
      | some canonical => (s.contained relative canonical).map (fun _ => resolved)
      | none => .ok resolved

/-- The location a path names, its directories made: where there is a file to be read, or
where one would be written. -/
def location (path : String) : Option FilePath :=
  match s.resolve path with
  | .error _ => none
  | .ok resolved => (s.tree.createDirAll resolved.dropLast).bind (·.place resolved)

/-! ### The service's own files -/

def ownDir : Option FilePath := s.tree.place (s.root ++ [".modbit"])

def Own (f : FilePath) : Prop := ∃ d ∈ s.ownDir, d <+: f

instance (f : FilePath) : Decidable (s.Own f) := inferInstanceAs (Decidable (∃ d ∈ s.ownDir, _))

/-- The ledger and the journal can be written where they are. -/
def KeepsBooks : Prop :=
  ∃ d ∈ s.ownDir, (s.tree.node d = none ∨ s.tree.node d = some .dir) ∧
    ∀ name ∈ ["revisions.tmp", "revisions.json", "changes.jsonl"],
      s.tree.node (d ++ [name]) = none ∨ (s.tree.fileAt (d ++ [name])).isSome = true

instance : Decidable s.KeepsBooks := inferInstanceAs (Decidable (∃ d ∈ s.ownDir, _))

def Outside (path : String) : Prop := ∀ f ∈ s.location path, ¬ s.Own f

instance (path : String) : Decidable (s.Outside path) :=
  inferInstanceAs (Decidable (∀ f ∈ s.location path, _))

/-! ### Calls -/

abbrev Answer (α : Type) := WorkspaceFileService × Except WorkspaceError α

/-- `resolve(path)?`. -/
def resolving {α : Type} (path : String) (next : FilePath → Answer α) : Answer α :=
  match s.resolve path with
  | .error e => (s, .error e)
  | .ok resolved => next resolved

/-- A file operation and `?`. -/
def doing {α : Type} (op : FileTree → Option FileTree)
    (next : WorkspaceFileService → Answer α) : Answer α :=
  match op s.tree with
  | none => (s, .error .io)
  | some t => next { s with tree := t }

def create (path : String) (bytes : List UInt8) : Answer Nat :=
  s.resolving path fun resolved =>
  if s.tree.has resolved then (s, .error (.alreadyExists path))
  else
    s.doing (·.createDirAll resolved.dropLast) fun s =>
    s.doing (·.write resolved bytes) fun s =>
    let s := { s with revisions := s.revisions.record path bytes }
    let rev := (s.revisions.entry path).revision
    (s.emitEvent path .created rev "", .ok rev)

def read (path : String) : Except WorkspaceError (List UInt8 × Nat) :=
  match s.resolve path with
  | .error e => .error e
  | .ok resolved =>
    match s.tree.read resolved with
    | none => .error .io
    | some bytes =>
      match s.fileRevision path with
      | none => .error (.pathNotFound path)
      | some revision => .ok (bytes, revision)

def replace (path : String) (bytes : List UInt8) (expectedRevision : Nat) : Answer Nat :=
  s.resolving path fun resolved =>
  let current := (s.fileRevision path).getD 0
  if current ≠ expectedRevision then
    (s, .error (.staleRevision path expectedRevision current))
  else
    let prevSha256 := ((s.revisions.live path).map (·.sha256)).getD ""
    s.doing (·.createDirAll resolved.dropLast) fun s =>
    let tmp := FilePath.withExtension "modbit-tmp" resolved
    s.doing (·.write tmp bytes) fun s =>
    s.doing (·.rename tmp resolved) fun s =>
    let s := { s with revisions := s.revisions.record path bytes }
    let rev := (s.revisions.entry path).revision
    (s.emitEvent path .modified rev prevSha256, .ok rev)

structure PatchHunk where
  anchorLine : Nat
  oldLines : List (List Char)
  newLines : List (List Char)
  deriving DecidableEq

def bottomUp (hunks : List PatchHunk) : List PatchHunk :=
  hunks.insertionSort (fun a b => b.anchorLine ≤ a.anchorLine)

def linesOf (bytes : List UInt8) : List (List Char) := Text.lines (Utf8.lossy bytes)

/-- `lines.join("\n") + "\n"`, in bytes. -/
def joinLines (lines : List (List Char)) : List UInt8 :=
  (['\n'].intercalate lines ++ ['\n']).flatMap String.utf8EncodeChar

/-- `lines.splice(start..start + old, new)`. -/
def spliceLines (lines : List (List Char)) (start : Nat) (hunk : PatchHunk) : List (List Char) :=
  lines.take start ++ hunk.newLines ++ lines.drop (start + hunk.oldLines.length)

def patchLines (path : String) : List PatchHunk → List (List Char) →
    Except WorkspaceError (List (List Char))
  | [], lines => .ok lines
  | hunk :: hunks, lines =>
    if hunk.anchorLine = 0 ∨ lines.length < hunk.anchorLine then
      .error (.patchMismatch path hunk.anchorLine)
    else
      let start := hunk.anchorLine - 1
      if lines.length < start + hunk.oldLines.length then
        .error (.patchMismatch path hunk.anchorLine)
      else if (lines.drop start).take hunk.oldLines.length ≠ hunk.oldLines then
        .error (.patchMismatch path hunk.anchorLine)
      else patchLines path hunks (spliceLines lines start hunk)

def applyPatch (path : String) (expectedRevision : Nat) (hunks : List PatchHunk) : Answer Nat :=
  match s.read path with
  | .error e => (s, .error e)
  | .ok (original, _) =>
    match patchLines path (bottomUp hunks) (linesOf original) with
    | .error e => (s, .error e)
    | .ok lines => s.replace path (joinLines lines) expectedRevision

def adopt (path : String) : Answer Nat :=
  s.resolving path fun resolved =>
  match s.tree.read resolved with
  | none => (s, .error .io)
  | some bytes =>
    match s.fileRevision path with
    | some revision => (s, .ok revision)
    | none =>
      let s := { s with revisions := s.revisions.record path bytes }
      (s, .ok (s.revisions.entry path).revision)

def delete (path : String) : Answer Nat :=
  s.resolving path fun resolved =>
  s.doing (·.removeFile resolved) fun s =>
  let prevSha256 := (s.revisions.entry path).sha256
  let s := { s with revisions := s.revisions.bury path }
  let rev := (s.revisions.entry path).revision
  (s.emitEvent path .deleted rev prevSha256, .ok rev)

def moveFile (source target : String) : Answer Nat :=
  s.resolving source fun resolvedFrom =>
  s.resolving target fun resolvedTo =>
  s.doing (·.createDirAll resolvedTo.dropLast) fun s =>
  s.doing (·.rename resolvedFrom resolvedTo) fun s =>
  let prevSha256 := (s.revisions.entry source).sha256
  let rev := (s.revisions.entry source).revision + 1
  let s := { s with revisions := s.revisions.carry source target }
  let s := s.emitEvent source .deleted rev prevSha256
  (s.emitEvent target .created rev "", .ok rev)

end WorkspaceFileService

end Workspace

end Modbit
