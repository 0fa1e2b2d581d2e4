import Modbit.Lib.Json
import Modbit.Lib.TreeWalk
import Modbit.Retrieval.Walker
import Modbit.Workspace.Service

/-!
# The reading tools of a worktree

`build_worktree_registry` in `crates/core-runtime/src/scheduler.rs`.  `fs.read`, `fs.list`
and `change.propose` go through the file service, which resolves a path before it touches
it; `search.grep` joins its path to the worktree and walks down from there, through links
too.  Media files are put into an object store under the worktree and answered with an
envelope in place of their bytes (`crates/tools/src/media.rs`).

A path of `search.grep` is its components: doubled slashes in it are not kept.  The walk
has fuel, and `none` is a walk that has not come to its end.
-/

namespace Modbit

open Lib Workspace

namespace WorktreeTools

/-! ### Media -/

inductive MediaType where
  | png | jpeg | pdf | text | binary
  deriving DecidableEq

structure MediaEnvelope where
  mediaId : String
  mediaType : MediaType
  mime : String
  byteLength : Nat
  sha256 : String
  objectRelPath : String
  source : String
  maxBudgetBytes : Nat
  trustLabel : String
  deriving DecidableEq

inductive MediaError where
  | empty
  | tooLarge (size budget : Nat)
  | unknownType
  | io
  deriving DecidableEq

def detectType (bytes : List UInt8) : Option (MediaType × String) :=
  if [0x89, 0x50, 0x4e, 0x47, 0x0d, 0x0a, 0x1a, 0x0a] <+: bytes then some (.png, "image/png")
  else if [0xff, 0xd8, 0xff] <+: bytes then some (.jpeg, "image/jpeg")
  else if [0x25, 0x50, 0x44, 0x46, 0x2d] <+: bytes then some (.pdf, "application/pdf")
  else if (Utf8.decode bytes).isSome then some (.text, "text/plain")
  else none

/-- `ObjectStore::put`: the relative path of the object and its digest. -/
def put (store : FilePath) (bytes : List UInt8) (t : FileTree) :
    FileTree × Except MediaError (String × String) :=
  let hash := Sha256.hex bytes
  let dir := String.ofList (hash.toList.take 2)
  let full := store ++ [dir, hash]
  let named := (dir ++ "/" ++ hash, hash)
  if t.has full then (t, .ok named)
  else
    match t.createDirAll full.dropLast with
    | none => (t, .error .io)
    | some t =>
      match t.write full bytes with
      | none => (t, .error .io)
      | some t => (t, .ok named)

def ingest (store : FilePath) (budget : Nat) (mediaId source : String) (bytes : List UInt8)
    (t : FileTree) : FileTree × Except MediaError MediaEnvelope :=
  if bytes = [] then (t, .error .empty)
  else if budget < bytes.length then (t, .error (.tooLarge bytes.length budget))
  else
    match detectType bytes with
    | none => (t, .error .unknownType)
    | some (mediaType, mime) =>
      match put store bytes t with
      | (t, .error e) => (t, .error e)
      | (t, .ok (objectRelPath, sha256)) =>
        (t, .ok ⟨mediaId, mediaType, mime, bytes.length, sha256, objectRelPath, source, budget,
          "untrusted-until-scanned"⟩)

/-! ### Calls and answers -/

/-- The tools, with what they share: the file service, whether the media pipeline is there,
and the paths the task index has as evidence, if there is one. -/
structure Tools where
  ws : WorkspaceFileService
  media : Bool
  evidence : Option (List String)

inductive ToolFailure where
  | missing (parameter : String)
  | workspace (e : WorkspaceError)
  | mediaIngest (e : MediaError)
  deriving DecidableEq

/-- A match of a search: the path, without the worktree where it is under it, and the line. -/
structure Position where
  absolute : Bool
  parts : List LinkPart
  line : Nat
  deriving DecidableEq

inductive Answer where
  | content (content : List Char) (fileRevision : Nat)
  | media (content : String) (fileRevision : Nat) (envelope : MediaEnvelope)
  | entries (entries : List String)
  /-- The proposal is refused: the task has not retrieved the path. -/
  | gated (path : String)
  /-- The proposal is refused: the old text is not there exactly once. -/
  | refused (occurrences : Nat)
  | proposed (fileRevision : Nat) (previewHead : List Char)
  | found (positions : List Position) (filesSearched : Nat)
  deriving DecidableEq

/-- `args.get(name).and_then(|v| v.as_str())`. -/
def strArg (args : Json) (name : String) : Option String := (args.field name).bind Json.asStr

namespace Tools

variable (s : Tools)

/-- `index.record_evidence(paths)`. -/
def recordEvidence (paths : List String) : Tools := { s with evidence := s.evidence.map (paths ++ ·) }

def mediaBudget : Nat := 8 * 1024 * 1024

def mediaText (envelope : MediaEnvelope) : String :=
  "[media: " ++ envelope.mime ++ " " ++ toString envelope.byteLength ++ " bytes, sha256 "
    ++ envelope.sha256 ++ "]"

/-- The answer to a read: an envelope for the media types, the text for everything else. -/
def view (path : String) (bytes : List UInt8) (rev : Nat) : Tools × Except ToolFailure Answer :=
  let detected := ((detectType bytes).map Prod.fst).getD .text
  if s.media ∧ detected ≠ .text ∧ detected ≠ .binary then
    match ingest (s.ws.root ++ [".modbit", "objects"]) mediaBudget path path bytes s.ws.tree with
    | (t, .error e) => ({ s with ws := { s.ws with tree := t } }, .error (.mediaIngest e))
    | (t, .ok envelope) =>
      ({ s with ws := { s.ws with tree := t } }, .ok (.media (mediaText envelope) rev envelope))
  else (s, .ok (.content (Utf8.lossy bytes) rev))

def fsRead (args : Json) : Tools × Except ToolFailure Answer :=
  match strArg args "path" with
  | none => (s, .error (.missing "path"))
  | some path =>
    -- Files checked out by git are adopted on first touch.
    let s := { s with ws := (s.ws.adopt path).1 }
    match s.ws.read path with
    | .error e => (s, .error (.workspace e))
    | .ok (bytes, rev) => (s.recordEvidence [path]).view path bytes rev

/-- `WorkspaceFileService::list`. -/
def list (ws : WorkspaceFileService) (dir : String) : Except WorkspaceError (List String) :=
  match ws.resolve dir with
  | .error e => .error e
  | .ok resolved =>
    match ws.tree.canonicalize resolved with
    | none => .error .io
    | some d =>
      if ws.tree.node d = some .dir then
        .ok (((ws.tree.children d).filter (· ≠ ".modbit")).insertionSort (· ≤ ·))
      else .error .io

def fsList (args : Json) : Tools × Except ToolFailure Answer :=
  match list s.ws ((strArg args "dir").getD "") with
  | .error e => (s, .error (.workspace e))
  | .ok entries => (s, .ok (.entries entries))

/-- `text.matches(old).count()`, after some characters of a match still to be passed. -/
def countFrom (old : List Char) : Nat → List Char → Nat
  | _, [] => if old = [] then 1 else 0
  | 0, c :: rest =>
    if old <+: c :: rest then countFrom old (old.length - 1) rest + 1 else countFrom old 0 rest
  | skip + 1, _ :: rest => countFrom old skip rest

/-- `text.replacen(old, new, 1)`. -/
def replaceFirst (old new : List Char) : List Char → List Char
  | [] => if old = [] then new else []
  | c :: rest =>
    if old <+: c :: rest then new ++ (c :: rest).drop old.length
    else c :: replaceFirst old new rest

/-- `tail(text, max)`. -/
def tail (text : List Char) (max : Nat) : List Char := text.drop (text.length - max)

/-- The answer to a proposal, from the content of the file. -/
def preview (old new content : List Char) (rev : Nat) : Answer :=
  let count := countFrom old 0 content
  if count ≠ 1 then .refused count
  else .proposed rev (tail (replaceFirst old new content) 600)

def changePropose (args : Json) : Tools × Except ToolFailure Answer :=
  match strArg args "path" with
  | none => (s, .error (.missing "path"))
  | some path =>
  match strArg args "old_text" with
  | none => (s, .error (.missing "old_text"))
  | some old =>
  match strArg args "new_text" with
  | none => (s, .error (.missing "new_text"))
  | some new =>
    if s.evidence.any (path ∉ ·) then (s, .ok (.gated path))
    else
      let s := { s with ws := (s.ws.adopt path).1 }
      match s.ws.read path with
      | .error e => (s, .error (.workspace e))
      | .ok (bytes, rev) => (s, .ok (preview old.toList new.toList (Utf8.lossy bytes) rev))

end Tools

/-! ### The search -/

/-- `worktree.join(p)`. -/
def join (worktree : FilePath) (p : String) : List LinkPart :=
  if Text.startsWith p "/" then Retrieval.pathParts p
  else worktree.map .name ++ Retrieval.pathParts p

def skipped (name : String) : Prop := name = ".git" ∨ name = "node_modules" ∨ name = "target"

instance (name : String) : Decidable (skipped name) := inferInstanceAs (Decidable (_ ∨ _))

section Walk

variable {σ : Type} (t : FileTree) (o : Listing) (f : σ → List LinkPart → σ)

/-- The loop over the entries of a directory, with the walk into one. -/
def walkEntries (walk : List LinkPart → σ → Option σ) (dir : List LinkPart) :
    List String → σ → Option σ
  | [], acc => some acc
  | name :: names, acc =>
    let path := dir ++ [.name name]
    match t.metadata path with
    | some .dir =>
      if skipped name then walkEntries walk dir names acc
      else (walk path acc).bind (walkEntries walk dir names)
    | some (.file _) => walkEntries walk dir names (f acc path)
    | _ => walkEntries walk dir names acc

/-- The walk over the files under a directory: `f` is called on each. -/
def walkFiles : Nat → List LinkPart → σ → Option σ
  | 0, _, _ => none
  | fuel + 1, dir, acc =>
    match t.locate dir with
    | none => some acc
    | some d =>
      if t.node d = some .dir then
        walkEntries t f (walkFiles fuel) dir (o.order dir (t.children d)) acc
      else some acc

end Walk

/-- `path.strip_prefix(&worktree).unwrap_or(path)`, and a line. -/
def position (worktree : FilePath) (path : List LinkPart) (line : Nat) : Position :=
  if worktree.map .name <+: path then ⟨false, path.drop worktree.length, line⟩
  else ⟨true, path, line⟩

/-- `rel.display()`. -/
def Position.display (p : Position) : String :=
  (if p.absolute then "/" else "") ++ Retrieval.relText (p.parts.map (fun part =>
    match part with
    | .up => ".."
    | .name x => x))

def maxMatches : Nat := 200

def maxVisited : Nat := 2000

def maxSearchedBytes : Nat := 256 * 1024

def scanLines (worktree : FilePath) (pattern : List Char) (path : List LinkPart) :
    Nat → List (List Char) → List Position → List Position
  | _, [], found => found
  | idx, line :: lines, found =>
    if pattern <:+: line then
      let found := found ++ [position worktree path (idx + 1)]
      if maxMatches ≤ found.length then found
      else scanLines worktree pattern path (idx + 1) lines found
    else scanLines worktree pattern path (idx + 1) lines found

structure Search where
  found : List Position
  visited : Nat

def visit (t : FileTree) (worktree : FilePath) (pattern : List Char) (acc : Search)
    (path : List LinkPart) : Search :=
  let acc := { acc with visited := acc.visited + 1 }
  if maxVisited < acc.visited ∨ maxMatches ≤ acc.found.length then acc
  else
    match t.metadata path with
    | some (.file bytes) =>
      if maxSearchedBytes < bytes.length then acc
      else { acc with found := scanLines worktree pattern path 0 (Text.lines (Utf8.lossy bytes))
                        acc.found }
    | _ => acc

def searchBase (worktree : FilePath) (args : Json) : List LinkPart :=
  match strArg args "path" with
  | some p => join worktree p
  | none => worktree.map .name

namespace Tools

variable (s : Tools)

def searchGrep (o : Listing) (fuel : Nat) (args : Json) :
    Option (Tools × Except ToolFailure Answer) :=
  match strArg args "pattern" with
  | none => some (s, .error (.missing "pattern"))
  | some pattern =>
    (walkFiles s.ws.tree o (visit s.ws.tree s.ws.root pattern.toList) fuel
      (searchBase s.ws.root args) ⟨[], 0⟩).map (fun acc =>
        (s.recordEvidence (acc.found.map Position.display), .ok (.found acc.found acc.visited)))

end Tools

/-! ### All four -/

inductive ReadTool where
  | fsRead | fsList | searchGrep | changePropose
  deriving DecidableEq

/-- A call of a tool, with the listings and the fuel for a walk. -/
def Tools.call (s : Tools) (o : Listing) (fuel : Nat) (tool : ReadTool) (args : Json) :
    Option (Tools × Except ToolFailure Answer) :=
  match tool with
  | .fsRead => some (s.fsRead args)
  | .fsList => some (s.fsList args)
  | .searchGrep => s.searchGrep o fuel args
  | .changePropose => some (s.changePropose args)

/-! ### Applying an edit

`change.apply` reads the file it is given, replaces the one occurrence of the old text, and writes
the file back against the revision it has read.  An edit that went through is handed to the run's
journal with the bytes before and after it. -/

/-- What the handler reads of its arguments: `as_str` and `as_i64` of the fields that are there. -/
structure ApplyArgs where
  path : Option String
  oldText : Option String
  newText : Option String
  expectedRevision : Option Int
  deriving DecidableEq

inductive ApplyAnswer where
  | stale (expected : Int) (fileRevision : Nat)
  | refused (occurrences : Nat)
  | applied (fileRevision : Nat)
  deriving DecidableEq

structure AppliedEdit where
  path : String
  before : List UInt8
  after : List UInt8
  deriving DecidableEq

namespace Tools

variable (s : Tools)

/-- The edit gate and the write, on a file that was read. -/
def applyTo (path old new : String) (bytes : List UInt8) (rev : Nat) :
    Tools × Except ToolFailure (ApplyAnswer × Option AppliedEdit) :=
  let content := Utf8.lossy bytes
  let count := countFrom old.toList 0 content
  if count ≠ 1 then (s, .ok (.refused count, none))
  else
    let updated := Utf8.encode (replaceFirst old.toList new.toList content)
    match s.ws.replace path updated rev with
    | (ws, .error e) => ({ s with ws := ws }, .error (.workspace e))
    | (ws, .ok newRev) => ({ s with ws := ws }, .ok (.applied newRev, some ⟨path, bytes, updated⟩))

def changeApply (args : ApplyArgs) : Tools × Except ToolFailure (ApplyAnswer × Option AppliedEdit) :=
  match args.path with
  | none => (s, .error (.missing "path"))
  | some path =>
  match args.oldText with
  | none => (s, .error (.missing "old_text"))
  | some old =>
  match args.newText with
  | none => (s, .error (.missing "new_text"))
  | some new =>
    let s := { s with ws := (s.ws.adopt path).1 }
    match s.ws.read path with
    | .error e => (s, .error (.workspace e))
    | .ok (bytes, rev) =>
      match args.expectedRevision with
      | some expected =>
        if 0 ≤ expected ∧ expected.toNat ≠ rev then (s, .ok (.stale expected rev, none))
        else s.applyTo path old new bytes rev
      | none => s.applyTo path old new bytes rev

end Tools

end WorktreeTools

end Modbit
