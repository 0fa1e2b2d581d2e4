import Modbit.Lib.Run
import Modbit.Lib.Text
import Modbit.Lib.Utf8

/-!
# The protocol-state journal

A journal of records, one line of JSON each.  `append` writes a line at the end of the
file, `open` reads the lines back and takes a last one that is no record for the rest of an
append that was cut off.

The text of a record is that of serde_json, of which `RecordJson` says what its
documentation does: a record is read back from its own text, which holds no control
characters, and an object that is cut off is no document.
-/

namespace Modbit

open Lib

namespace ProtocolState

/-! ### Records -/

inductive ToolCallStatus where
  | awaitingApproval | approved | running | completed
  deriving DecidableEq

inductive ApprovalStatus where
  | pending | granted | denied
  deriving DecidableEq

inductive ProtocolRecord where
  | toolCall (callId name arguments : String) (status : ToolCallStatus)
  | approvalRequest (approvalId tool scope : String) (status : ApprovalStatus)
  | question (questionId text : String) (answered : Bool)
  | terminalCursor (runId : String) (offset : UInt64)
  | subagent (subagentId task state : String)
  deriving DecidableEq

structure RecordJson where
  toText : ProtocolRecord → List Char
  fromText : List Char → Option ProtocolRecord
  fromText_toText : ∀ r, fromText (toText r) = some r
  fromText_cut : ∀ r p, p <+: toText r → p ≠ toText r → fromText p = none
  plain : ∀ r, '\n' ∉ toText r ∧ '\r' ∉ toText r
  toText_ne_nil : ∀ r, toText r ≠ []

inductive ProtocolStateError where
  | io
  | serialization
  deriving DecidableEq

structure ProtocolStateStore where
  records : List ProtocolRecord
  deriving DecidableEq

variable (json : RecordJson)

/-! ### Opening and appending -/

/-- The records of the lines; the last one may be torn. -/
def replay : List (List Char) → Except ProtocolStateError (List ProtocolRecord)
  | [] => .ok []
  | [line] =>
    match json.fromText line with
    | some r => .ok [r]
    | none => .ok []
  | line :: next :: rest =>
    match json.fromText line with
    | some r => (replay (next :: rest)).map (r :: ·)
    | none => .error .serialization

def openStore (file : Option (List UInt8)) : Except ProtocolStateError ProtocolStateStore :=
  match file with
  | none => .ok ⟨[]⟩
  | some bytes =>
    match Utf8.decode bytes with
    | none => .error .io
    | some text => (replay json ((Text.lines text).filter (· ≠ []))).map ProtocolStateStore.mk

/-- The line `append` writes. -/
def line (r : ProtocolRecord) : List UInt8 := Utf8.encode (json.toText r ++ ['\n'])

/-! ### Runs -/

/-- The file and the store that is open, if any.  `attempts` are the records that were
appended, with whether the call returned. -/
structure World where
  file : Option (List UInt8)
  store : Option ProtocolStateStore
  attempts : List (ProtocolRecord × Bool)

inductive Event where
  | reopen
  | append (r : ProtocolRecord)
  | crash
  | crashAppending (r : ProtocolRecord) (written : Nat)
  deriving DecidableEq

/-- One event.  Without an open store nothing is appended, and a crash in the middle of an
append leaves less than the line. -/
def World.step (w : World) : Event → World × Except ProtocolStateError Unit
  | .reopen =>
    match openStore json w.file with
    | .ok store => ({ w with store := some store }, .ok ())
    | .error e => ({ w with store := none }, .error e)
  | .append r =>
    match w.store with
    | none => (w, .ok ())
    | some store =>
      ({ file := some (w.file.getD [] ++ line json r)
         store := some ⟨store.records ++ [r]⟩
         attempts := w.attempts ++ [(r, true)] }, .ok ())
  | .crash => ({ w with store := none }, .ok ())
  | .crashAppending r written =>
    if w.store.isSome ∧ written < (line json r).length then
      ({ file := some (w.file.getD [] ++ (line json r).take written)
         store := none
         attempts := w.attempts ++ [(r, false)] }, .ok ())
    else (w, .ok ())

def World.fresh : World := ⟨none, none, []⟩

/-- The records are those of the appends that returned, in order, and of others only some. -/
inductive Recovers : List (ProtocolRecord × Bool) → List ProtocolRecord → Prop
  | nil : Recovers [] []
  | kept {as : List (ProtocolRecord × Bool)} {rs : List ProtocolRecord} (r : ProtocolRecord) (ok : Bool)
      (h : Recovers as rs) : Recovers (as ++ [(r, ok)]) (rs ++ [r])
  | lost {as : List (ProtocolRecord × Bool)} {rs : List ProtocolRecord} (r : ProtocolRecord)
      (h : Recovers as rs) : Recovers (as ++ [(r, false)]) rs

/-- The store can be opened, with the records of the appends that returned. -/
def World.Durable (w : World) : Prop :=
  ∃ store, openStore json w.file = .ok store ∧ Recovers w.attempts store.records

def AtLineStart (file : Option (List UInt8)) : Prop :=
  (Utf8.decode (file.getD [])).any (fun text => text = [] ∨ text.getLast? = some '\n')

/-- What is appended goes to the start of a line, and an append that is cut off is not cut in the
middle of a character. -/
def World.Clean (w : World) : Event → Prop
  | .reopen => True
  | .append _ => w.store.isSome → AtLineStart w.file
  | .crash => True
  | .crashAppending r written => w.store.isSome → written < (line json r).length → written ≠ 0 →
      AtLineStart w.file ∧ (Utf8.decode ((line json r).take written)).isSome

end ProtocolState

end Modbit
