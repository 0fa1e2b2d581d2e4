import Modbit.Workspace.Service

/-!
# The change engine

A transaction is planned in memory, edit by edit and each against the file as it is on
disk.  What is planned is then staged in files next to the edited ones, their extension
replaced by `txn-tmp`; these are renamed over the edited files and the ledger records
them.  Nothing is emitted to the journal.

A call that panics has the answer `none`: `match_ladder` takes a slice that is too long
when there are more old lines than lines.
-/

namespace Modbit

open Lib

namespace Workspace

open WorkspaceFileService (PatchHunk bottomUp linesOf joinLines spliceLines)

structure EditOp where
  path : String
  expectedRevision : Nat
  hunks : List PatchHunk
  deriving DecidableEq

inductive MatchTier where
  | exact | whitespaceRemap
  deriving DecidableEq

inductive TransactionError where
  | precondition (path : String) (expected actual : Nat)
  | noMatch (path : String) (anchor : Nat)
  | ambiguous (path : String) (anchor : Nat)
  | io (e : WorkspaceError)
  deriving DecidableEq

namespace TransactionError

/-- The conversion `?` applies to an error of the service. -/
def ofWorkspace : WorkspaceError → TransactionError
  | .staleRevision path expected actual => .precondition path expected actual
  | .pathNotFound path => .precondition path 0 0
  | .outsideRoot path => .noMatch path 0
  | e => .io e

/-- The path filled in where the ladder left it empty. -/
def atPath (path : String) : TransactionError → TransactionError
  | .noMatch p anchor => .noMatch (if p = "" then path else p) anchor
  | .ambiguous p anchor => .ambiguous (if p = "" then path else p) anchor
  | e => e

end TransactionError

abbrev Outcome (α : Type) := Option (Except TransactionError α)

/-! ### Matching -/

def whitespaceNormalized (line : List Char) : List Char :=
  [' '].intercalate ((line.splitOnP Text.isWhitespace).filter (· ≠ []))

def occurrences (lines oldLines : List (List Char)) : List Nat :=
  (List.range (lines.length - oldLines.length + 1)).filter
    (fun start => (lines.drop start).take oldLines.length = oldLines)

def matchLadder (lines : List (List Char)) (anchor : Nat) (oldLines : List (List Char)) :
    Outcome (Nat × MatchTier) :=
  if oldLines = [] then some (.error (.noMatch "" 0))
  else if lines.length < oldLines.length then none
  else
    match occurrences lines oldLines with
    | [start] => some (.ok (start, .exact))
    | _ :: _ :: _ => some (.error (.ambiguous "" anchor))
    | [] =>
      match occurrences (lines.map whitespaceNormalized) (oldLines.map whitespaceNormalized) with
      | [start] => some (.ok (start, .whitespaceRemap))
      | _ :: _ :: _ => some (.error (.ambiguous "" anchor))
      | [] => some (.error (.noMatch "" anchor))

def matchHunks (path : String) : List PatchHunk → List (List Char) → Outcome (List (List Char))
  | [], lines => some (.ok lines)
  | hunk :: hunks, lines =>
    match matchLadder lines hunk.anchorLine hunk.oldLines with
    | none => none
    | some (.error e) => some (.error (e.atPath path))
    | some (.ok (start, _)) => matchHunks path hunks (spliceLines lines start hunk)

def editBytes (edit : EditOp) (bytes : List UInt8) : Outcome (List UInt8) :=
  match matchHunks edit.path (bottomUp edit.hunks) (linesOf bytes) with
  | none => none
  | some (.error e) => some (.error e)
  | some (.ok lines) => some (.ok (joinLines lines))

/-! ### Transactions -/

namespace WorkspaceFileService

def planEdit (s : WorkspaceFileService) (edit : EditOp) : Outcome (List UInt8) :=
  match s.read edit.path with
  | .error (.pathNotFound p) => some (.error (.precondition p edit.expectedRevision 0))
  | .error e => some (.error (.io e))
  | .ok (bytes, current) =>
    if current ≠ edit.expectedRevision then
      some (.error (.precondition edit.path edit.expectedRevision current))
    else editBytes edit bytes

/-- The first phase: the paths with their new bytes. -/
def plan (s : WorkspaceFileService) : List EditOp → Outcome (List (String × List UInt8))
  | [] => some (.ok [])
  | edit :: edits =>
    match s.planEdit edit with
    | none => none
    | some (.error e) => some (.error e)
    | some (.ok bytes) =>
      match s.plan edits with
      | none => none
      | some (.error e) => some (.error e)
      | some (.ok planned) => some (.ok ((edit.path, bytes) :: planned))

def txnTmp (resolved : FilePath) : FilePath := FilePath.withExtension "txn-tmp" resolved

def stage : List (String × List UInt8) → WorkspaceFileService →
    WorkspaceFileService × Except TransactionError (List (FilePath × FilePath))
  | [], s => (s, .ok [])
  | (path, bytes) :: planned, s =>
    match s.resolve path with
    | .error e => (s, .error (.ofWorkspace e))
    | .ok resolved =>
      match s.tree.createDirAll resolved.dropLast with
      | none => (s, .error (.io .io))
      | some t =>
        match t.write (txnTmp resolved) bytes with
        | none => ({ s with tree := t }, .error (.io .io))
        | some t =>
          match stage planned { s with tree := t } with
          | (s, .error e) => (s, .error e)
          | (s, .ok staged) => (s, .ok ((txnTmp resolved, resolved) :: staged))

def renameAll : List (FilePath × FilePath) → WorkspaceFileService →
    WorkspaceFileService × Except TransactionError Unit
  | [], s => (s, .ok ())
  | (tmp, final) :: staged, s =>
    match s.tree.rename tmp final with
    | none => (s, .error (.io .io))
    | some t => renameAll staged { s with tree := t }

def commitStaged (s : WorkspaceFileService) (path : String) (bytes : List UInt8) :
    WorkspaceFileService × Nat :=
  let s := { s with revisions := s.revisions.record path bytes }
  (s, (s.revisions.entry path).revision)

/-- The third phase: the ledger records every planned path. -/
def commitAll : List (String × List UInt8) → WorkspaceFileService →
    WorkspaceFileService × List (String × Nat)
  | [], s => (s, [])
  | (path, bytes) :: planned, s =>
    let (s, rev) := s.commitStaged path bytes
    let (s, results) := commitAll planned s
    (s, (path, rev) :: results)

def applyTransaction (s : WorkspaceFileService) (edits : List EditOp) :
    WorkspaceFileService × Outcome (List (String × Nat)) :=
  match s.plan edits with
  | none => (s, none)
  | some (.error e) => (s, some (.error e))
  | some (.ok planned) =>
    match stage planned s with
    | (s, .error e) => (s, some (.error e))
    | (s, .ok staged) =>
      match renameAll staged s with
      | (s, .error e) => (s, some (.error e))
      | (s, .ok ()) =>
        let (s, results) := commitAll planned s
        (s, some (.ok results))

end WorkspaceFileService

end Workspace

end Modbit
