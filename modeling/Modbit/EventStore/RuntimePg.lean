import Modbit.EventStore.Runtime

/-!
# The runtime store on Postgres

`PgRuntimeStore` mirrors `RuntimeStore` method for method.  Where the dialects differ,
so do the definitions: a text with a zero character is refused by the server, and so is
the key of a new row that its indexes have no room for; a preview is cut at 512 bytes and
loses its zero characters, registering a handle again keeps the time it was created, and
the reference of a background operation is not checked.

`RuntimeOp` is a call of either store, with the clock's value and the choices that are
the server's: the scan orders of the two, and the collation of the texts.
-/

namespace Modbit

open Lib

inductive PgRuntimeError where
  | postgres (detail : String)
  | notFound (id : String)
  deriving DecidableEq

structure PgRuntimeStore where
  outputRefs : String → Option OutputRefRow
  backgroundTasks : List BackgroundRow
  toolCalls : List ToolCallRow

/-- Postgres takes no text with a zero character. -/
def HasNul (text : String) : Prop := Char.ofNat 0 ∈ text.toList

instance (text : String) : Decidable (HasNul text) := inferInstanceAs (Decidable (_ ∈ _))

/-- The texts of a statement, checked by the server before it runs.  A digest and a
preview have no zero character. -/
def pgTexts (texts : List String) : Except PgRuntimeError Unit :=
  refuseIf (∃ text ∈ texts, HasNul text)
    (.postgres "invalid byte sequence for encoding \x22UTF8\x22: 0x00")

/-- What the server says of the keys of a new row, if an index has no room for one. -/
def pgKeys (indexRefusal : String → Option String) (keys : List String) :
    Except PgRuntimeError Unit :=
  match keys.findSome? indexRefusal with
  | some detail => .error (.postgres detail)
  | none => .ok ()

/-- An `INSERT` that makes a row with these keys, if there are any. -/
def pgInsert (indexRefusal : String → Option String) (texts keys : List String) :
    Except PgRuntimeError Unit := do
  pgTexts texts
  pgKeys indexRefusal keys

def pgPreview (payload : Payload) : String :=
  String.ofList (((Utf8.lossy (payload.1.take 512)).filter (· ≠ Char.ofNat 0)).take 512)

namespace PgRuntimeStore

def fresh : PgRuntimeStore := ⟨fun _ => none, [], []⟩

variable (indexRefusal : String → Option String) (s : PgRuntimeStore)

def writeOutputRef (outputRefId contentType : String) (payload : Payload) :
    PgRuntimeStore × Except PgRuntimeError OutputRef :=
  let objectHash := Sha256.hex payload.1
  let previewText := pgPreview payload
  match pgInsert indexRefusal [outputRefId, contentType]
      (if (s.outputRefs outputRefId).isSome then [] else [outputRefId]) with
  | .error x => (s, .error x)
  | .ok _ =>
    let row : OutputRefRow :=
      ⟨objectHash, contentType, payload.1.length, objectHash, previewText, payload.1⟩
    ({ s with outputRefs := Function.update s.outputRefs outputRefId row },
      .ok ⟨outputRefId, objectHash, contentType, payload.1.length, objectHash, previewText,
        payload.1⟩)

def fetchPayloadRow (outputRefId : String) : Except PgRuntimeError (List UInt8 × Nat) := do
  pgTexts [outputRefId]
  let row ← okOr (s.outputRefs outputRefId) (.notFound outputRefId)
  return (row.payload, row.byteLength)

def readOutputRange (outputRefId : String) (offset max : UInt64) :
    Except PgRuntimeError (List UInt8 × Nat) := do
  let (payload, total) ← s.fetchPayloadRow outputRefId
  return (clampedRange payload offset max, total)

def readOutput (outputRefId : String) : Except PgRuntimeError (List UInt8) :=
  (s.fetchPayloadRow outputRefId).map Prod.fst

/-- `INSERT … ON CONFLICT (handle_id) DO UPDATE`, which leaves `created_at` alone. -/
def registerBackground (now : Nat) (handleId kind : String) (outputRefId : Option String)
    (boundedPreview : String) : PgRuntimeStore × Except PgRuntimeError Unit :=
  match pgInsert indexRefusal ([handleId, kind, boundedPreview] ++ outputRefId.toList)
      (if ∃ r ∈ s.backgroundTasks, r.handleId = handleId then [] else [handleId]) with
  | .error x => (s, .error x)
  | .ok _ =>
    let rows :=
      if ∃ r ∈ s.backgroundTasks, r.handleId = handleId then
        s.backgroundTasks.map (fun r =>
          if r.handleId = handleId then
            { r with
              kind := kind, status := .running, outputRefId := outputRefId,
              boundedPreview := boundedPreview, stoppedAt := none }
          else r)
      else
        s.backgroundTasks ++ [⟨handleId, kind, .running, outputRefId, boundedPreview, now, none⟩]
    ({ s with backgroundTasks := rows }, .ok ())

def stopBackground (now : Nat) (handleId : String) : PgRuntimeStore × Except PgRuntimeError Unit :=
  match pgTexts [handleId] with
  | .error x => (s, .error x)
  | .ok _ =>
    if ∃ r ∈ s.backgroundTasks, r.handleId = handleId then
      ({ s with backgroundTasks := stopRows now handleId s.backgroundTasks }, .ok ())
    else (s, .error (.notFound handleId))

def listBackground (scan : ScanOrder BackgroundRow) :
    List (String × String × BackgroundStatus × String) :=
  listRows scan s.backgroundTasks

def recordToolCall (now : Nat) (toolCallId stepId toolName effectClass argumentsHash : String) :
    PgRuntimeStore × Except PgRuntimeError Unit :=
  match pgInsert indexRefusal [toolCallId, stepId, toolName, effectClass, argumentsHash]
      (if ∃ r ∈ s.toolCalls, r.toolCallId = toolCallId then [] else [toolCallId, stepId]) with
  | .error x => (s, .error x)
  | .ok _ =>
    let row : ToolCallRow :=
      ⟨toolCallId, stepId, toolName, effectClass, false, argumentsHash, none, now, none⟩
    ({ s with toolCalls := insertCall row s.toolCalls }, .ok ())

def recordToolResult (now : Nat) (toolCallId : String) (result : List UInt8) :
    PgRuntimeStore × Except PgRuntimeError Unit :=
  match pgTexts [toolCallId] with
  | .error x => (s, .error x)
  | .ok _ =>
    if ∃ r ∈ s.toolCalls, r.toolCallId = toolCallId then
      ({ s with toolCalls := completeRows now toolCallId result s.toolCalls }, .ok ())
    else (s, .error (.notFound toolCallId))

def toolPairs (scan : ScanOrder ToolCallRow) (collate : String → String → Bool) (stepId : String) :
    Except PgRuntimeError (List (String × String × Option (List UInt8))) := do
  pgTexts [stepId]
  return pairRows scan collate stepId s.toolCalls

end PgRuntimeStore

/-! ### One call of both -/

/-- How a server compares two texts: a linear order. -/
structure Collation where
  le : String → String → Bool
  total : ∀ a b, le a b || le b a
  trans : ∀ a b c, le a b → le b c → le a c
  antisymm : ∀ a b, le a b → le b a → a = b

inductive RuntimeOp where
  | writeOutputRef (outputRefId contentType : String) (payload : Payload)
  | readOutput (outputRefId : String)
  | readOutputRange (outputRefId : String) (offset max : UInt64)
  | registerBackground (now : Nat) (handleId kind : String) (outputRefId : Option String)
      (boundedPreview : String)
  | stopBackground (now : Nat) (handleId : String)
  | listBackground (sqlite pg : ScanOrder BackgroundRow)
  | recordToolCall (now : Nat) (toolCallId stepId toolName effectClass argumentsHash : String)
  | recordToolResult (now : Nat) (toolCallId : String) (result : List UInt8)
  | toolPairs (sqlite pg : ScanOrder ToolCallRow) (collation : Collation) (stepId : String)

inductive RuntimeValue where
  | outputRef (r : OutputRef)
  | bytes (b : List UInt8)
  | range (b : List UInt8) (total : Nat)
  | done
  | background (rows : List (String × String × BackgroundStatus × String))
  | pairs (rows : List (String × String × Option (List UInt8)))

abbrev SqliteReply := Except RuntimeError RuntimeValue

abbrev PgReply := Except PgRuntimeError RuntimeValue

def answer {σ ε α : Type} (f : α → RuntimeValue) (r : σ × Except ε α) :
    σ × Except ε RuntimeValue :=
  (r.1, r.2.map f)

def sqliteStep (foreignKeys : Bool) (s : RuntimeStore Empty) :
    RuntimeOp → RuntimeStore Empty × SqliteReply
  | .writeOutputRef id contentType payload =>
    answer .outputRef (s.writeOutputRef id contentType payload)
  | .readOutput id => answer .bytes (s, s.readOutput id)
  | .readOutputRange id offset max =>
    answer (fun r => .range r.1 r.2) (s, s.readOutputRange id offset max)
  | .registerBackground now handleId kind outputRefId preview =>
    answer (fun _ => .done)
      (s.registerBackground foreignKeys now handleId kind outputRefId preview)
  | .stopBackground now handleId => answer (fun _ => .done) (s.stopBackground now handleId)
  | .listBackground scan _ => answer .background (s, .ok (s.listBackground scan))
  | .recordToolCall now toolCallId stepId toolName effectClass argumentsHash =>
    answer (fun _ => .done)
      (s.recordToolCall now toolCallId stepId toolName effectClass argumentsHash)
  | .recordToolResult now toolCallId result =>
    answer (fun _ => .done) (s.recordToolResult now toolCallId result)
  | .toolPairs scan _ _ stepId => answer .pairs (s, .ok (s.toolPairs scan stepId))

def pgStep (indexRefusal : String → Option String) (s : PgRuntimeStore) :
    RuntimeOp → PgRuntimeStore × PgReply
  | .writeOutputRef id contentType payload =>
    answer .outputRef (s.writeOutputRef indexRefusal id contentType payload)
  | .readOutput id => answer .bytes (s, s.readOutput id)
  | .readOutputRange id offset max =>
    answer (fun r => .range r.1 r.2) (s, s.readOutputRange id offset max)
  | .registerBackground now handleId kind outputRefId preview =>
    answer (fun _ => .done)
      (s.registerBackground indexRefusal now handleId kind outputRefId preview)
  | .stopBackground now handleId => answer (fun _ => .done) (s.stopBackground now handleId)
  | .listBackground _ scan => answer .background (s, .ok (s.listBackground scan))
  | .recordToolCall now toolCallId stepId toolName effectClass argumentsHash =>
    answer (fun _ => .done)
      (s.recordToolCall indexRefusal now toolCallId stepId toolName effectClass argumentsHash)
  | .recordToolResult now toolCallId result =>
    answer (fun _ => .done) (s.recordToolResult now toolCallId result)
  | .toolPairs _ scan collation stepId =>
    answer .pairs (s, s.toolPairs scan collation.le stepId)

end Modbit
