import Modbit.EventStore.ObjectIsolation
import Modbit.Lib.Utf8

/-!
# The runtime store

The tables of `RuntimeStore`: output references, background operations and tool calls,
with the calls that write and read them.  A payload lies in its row, or in an object
store when one is attached; `β` names the object stores there are, each a correct one
(`Holdings`, what `Meets` makes of a backend), so `RuntimeStore Empty` is the store
without any.

A call that stamps a row takes the clock's value; SQLite checks the reference of a
background operation only where foreign keys are on.  A sort takes the order in which
the rows are scanned, which decides ties.
-/

namespace Modbit

open Lib

/-- The bytes of a Rust slice, of which there are at most `isize::MAX`. -/
abbrev Payload := { bytes : List UInt8 // bytes.length < 2 ^ 63 }

/-- `Io` carries the object store's error it prints. -/
inductive RuntimeError where
  | sqlite (detail : String)
  | io (detail : ObjectStoreError)
  | notFound (id : String)
  deriving DecidableEq

structure OutputRef where
  outputRefId : String
  objectHash : String
  contentType : String
  byteLength : Nat
  checksum : String
  previewText : String
  payload : List UInt8
  deriving DecidableEq

/-- A row of `output_refs`; nothing reads `created_at` and `retention_class`. -/
structure OutputRefRow where
  objectHash : String
  contentType : String
  byteLength : Nat
  checksum : String
  previewText : String
  payload : List UInt8

inductive BackgroundStatus where
  | running
  | stopped
  deriving DecidableEq

/-- A row of `background_tasks`. -/
structure BackgroundRow where
  handleId : String
  kind : String
  status : BackgroundStatus
  outputRefId : Option String
  boundedPreview : String
  createdAt : Nat
  stoppedAt : Option Nat
  deriving DecidableEq

/-- A row of `tool_calls`; `tool_version`, `result_ref` and `unknown_outcome_reason` are
never written. -/
structure ToolCallRow where
  toolCallId : String
  stepId : String
  toolName : String
  effectClass : String
  succeeded : Bool
  argumentsHash : String
  resultPayload : Option (List UInt8)
  dispatchedAt : Nat
  completedAt : Option Nat
  deriving DecidableEq

structure RuntimeStore (β : Type) where
  outputRefs : String → Option OutputRefRow
  backgroundTasks : List BackgroundRow
  toolCalls : List ToolCallRow
  objects : β → Holdings
  backend : Option β

structure ScanOrder (α : Type) where
  order : List α → List α
  perm : ∀ rows, (order rows).Perm rows

def ScanOrder.inserted (α : Type) : ScanOrder α := ⟨id, fun _ => .refl _⟩

def previewBytes : Nat := 256

def sqlitePreview (payload : Payload) : String :=
  String.ofList ((Utf8.lossy (payload.1.take previewBytes)).take previewBytes)

/-- `bytes[start..end]` of a range, clamped to the bytes. -/
def clampedRange (payload : List UInt8) (offset max : UInt64) : List UInt8 :=
  let start := min offset.toNat payload.length
  let stop := min (min (offset.toNat + max.toNat) (2 ^ 64 - 1)) payload.length
  (payload.take stop).drop start

namespace RuntimeStore

variable {β : Type} [DecidableEq β]

def fresh (β : Type) : RuntimeStore β := ⟨fun _ => none, [], [], fun _ _ => none, none⟩

/-! ### Output references -/

def objectKeyFor (outputRefId : String) : Except RuntimeError ObjectKey :=
  (ObjectKey.new "_runtime" "output-refs" outputRefId).mapError .io

/-- Puts the bytes into the attached object store, or leaves them to the row. -/
def storedBytes (s : RuntimeStore β) (outputRefId contentType : String) (payload : Payload) :
    Except RuntimeError ((β → Holdings) × List UInt8) :=
  match s.backend with
  | some b => do
    let key ← objectKeyFor outputRefId
    let op := ObjectOp.put key contentType payload.1 none
    return (Function.update s.objects b ((s.objects b).after op), [])
  | none => .ok (s.objects, payload.1)

def writeOutputRef (s : RuntimeStore β) (outputRefId contentType : String) (payload : Payload) :
    RuntimeStore β × Except RuntimeError OutputRef :=
  let objectHash := Sha256.hex payload.1
  let previewText := sqlitePreview payload
  match s.storedBytes outputRefId contentType payload with
  | .error x => (s, .error x)
  | .ok (objects, stored) =>
    let row : OutputRefRow :=
      ⟨objectHash, contentType, payload.1.length, objectHash, previewText, stored⟩
    ({ s with objects := objects, outputRefs := Function.update s.outputRefs outputRefId row },
      .ok ⟨outputRefId, objectHash, contentType, payload.1.length, objectHash, previewText,
        payload.1⟩)

/-- The object store first, the bytes of the row when it has none. -/
def loadOutputPayload (s : RuntimeStore β) (outputRefId : String) :
    Except RuntimeError (List UInt8 × Nat) := do
  let row ← okOr (s.outputRefs outputRefId) (.notFound outputRefId)
  match s.backend with
  | none => return (row.payload, row.byteLength)
  | some b =>
    let key ← objectKeyFor outputRefId
    match expected (s.objects b) key with
    | .ok (bytes, _) => return (bytes, row.byteLength)
    | .error (.notFound _) =>
      if row.payload ≠ [] then return (row.payload, row.byteLength)
      else .error (.notFound outputRefId)
    | .error x => .error (.io x)

def readOutput (s : RuntimeStore β) (outputRefId : String) : Except RuntimeError (List UInt8) :=
  (s.loadOutputPayload outputRefId).map Prod.fst

def readOutputRange (s : RuntimeStore β) (outputRefId : String) (offset max : UInt64) :
    Except RuntimeError (List UInt8 × Nat) := do
  let (payload, total) ← s.loadOutputPayload outputRefId
  return (clampedRange payload offset max, total)

/-- Closing the store and opening it again, with an object store or without. -/
def reopen (s : RuntimeStore β) (backend : Option β) : RuntimeStore β :=
  { s with backend := backend }

/-! ### Background operations -/

/-- `INSERT OR REPLACE`; a reference to no output violates the foreign key. -/
def registerBackground (foreignKeys : Bool) (s : RuntimeStore β) (now : Nat)
    (handleId kind : String) (outputRefId : Option String) (boundedPreview : String) :
    RuntimeStore β × Except RuntimeError Unit :=
  if foreignKeys = true ∧ ∃ id ∈ outputRefId, s.outputRefs id = none then
    (s, .error (.sqlite "FOREIGN KEY constraint failed"))
  else
    let row : BackgroundRow :=
      ⟨handleId, kind, .running, outputRefId, boundedPreview, now, none⟩
    ({ s with backgroundTasks :=
        s.backgroundTasks.filter (fun r => r.handleId ≠ handleId) ++ [row] }, .ok ())

end RuntimeStore

/-- `UPDATE background_tasks SET status = 'stopped', stopped_at = …`. -/
def stopRows (now : Nat) (handleId : String) (rows : List BackgroundRow) : List BackgroundRow :=
  rows.map (fun r =>
    if r.handleId = handleId then { r with status := .stopped, stoppedAt := some now } else r)

/-- `ORDER BY created_at`. -/
def listRows (scan : ScanOrder BackgroundRow) (rows : List BackgroundRow) :
    List (String × String × BackgroundStatus × String) :=
  ((scan.order rows).mergeSort (fun r r' => r.createdAt ≤ r'.createdAt)).map
    (fun r => (r.handleId, r.kind, r.status, r.boundedPreview))

/-- An insert of a tool call that changes nothing when there is one of its identity. -/
def insertCall (row : ToolCallRow) (rows : List ToolCallRow) : List ToolCallRow :=
  if ∃ r ∈ rows, r.toolCallId = row.toolCallId then rows else rows ++ [row]

/-- `UPDATE tool_calls SET status = 'succeeded', …`. -/
def completeRows (now : Nat) (toolCallId : String) (result : List UInt8)
    (rows : List ToolCallRow) : List ToolCallRow :=
  rows.map (fun r =>
    if r.toolCallId = toolCallId then
      { r with succeeded := true, resultPayload := some result, completedAt := some now }
    else r)

/-- `ORDER BY dispatched_at, tool_call_id`, texts compared by `le`. -/
def callOrder (le : String → String → Bool) (r r' : ToolCallRow) : Bool :=
  r.dispatchedAt < r'.dispatchedAt ||
    (r.dispatchedAt == r'.dispatchedAt && le r.toolCallId r'.toolCallId)

/-- The calls of a step with their results, in order. -/
def pairRows (scan : ScanOrder ToolCallRow) (le : String → String → Bool) (stepId : String)
    (rows : List ToolCallRow) : List (String × String × Option (List UInt8)) :=
  ((scan.order (rows.filter (fun r => r.stepId = stepId))).mergeSort (callOrder le)).map
    (fun r => (r.toolCallId, r.toolName, r.resultPayload))

namespace RuntimeStore

variable {β : Type} (s : RuntimeStore β)

def stopBackground (now : Nat) (handleId : String) : RuntimeStore β × Except RuntimeError Unit :=
  if ∃ r ∈ s.backgroundTasks, r.handleId = handleId then
    ({ s with backgroundTasks := stopRows now handleId s.backgroundTasks }, .ok ())
  else (s, .error (.notFound handleId))

def listBackground (scan : ScanOrder BackgroundRow) :
    List (String × String × BackgroundStatus × String) :=
  listRows scan s.backgroundTasks

/-! ### Tool calls -/

def recordToolCall (now : Nat) (toolCallId stepId toolName effectClass argumentsHash : String) :
    RuntimeStore β × Except RuntimeError Unit :=
  let row : ToolCallRow :=
    ⟨toolCallId, stepId, toolName, effectClass, false, argumentsHash, none, now, none⟩
  ({ s with toolCalls := insertCall row s.toolCalls }, .ok ())

def recordToolResult (now : Nat) (toolCallId : String) (result : List UInt8) :
    RuntimeStore β × Except RuntimeError Unit :=
  if ∃ r ∈ s.toolCalls, r.toolCallId = toolCallId then
    ({ s with toolCalls := completeRows now toolCallId result s.toolCalls }, .ok ())
  else (s, .error (.notFound toolCallId))

/-- SQLite compares texts by their bytes, which is the order of their characters. -/
def toolPairs (scan : ScanOrder ToolCallRow) (stepId : String) :
    List (String × String × Option (List UInt8)) :=
  pairRows scan (fun a b => a ≤ b) stepId s.toolCalls

end RuntimeStore

end Modbit
