import Modbit.Desktop.SurfaceMessages
import Modbit.Lib.Utf16
import Modbit.Lib.Fallible

/-!
# The surface client of the desktop

`apps/desktop/electron/surface-client.cjs`: requests are encoded and responses decoded by
hand.  A string is UTF-16 and at most as long as ECMAScript lets it be; a buffer made of
numbers keeps the low byte of each.  A field that was decoded is a `BigInt` or a buffer, and
decoders take either for what they expect, as JavaScript does: `toString("utf8")` of a
`BigInt` throws, a buffer as a number is not one, and a `BigInt` as a message has no fields.

`JSON.parse` is any partial function.  A request with several of its properties set is
encoded as the first of them; a `Request` has one.
-/

namespace Modbit

open Lib

namespace Desktop

/-! ### Strings -/

structure JsString where
  units : List UInt16
  bound : units.length < 2 ^ 53

/-- `Buffer.from(s, "utf8")`. -/
def JsString.utf8 (s : JsString) : List UInt8 := Utf8.encode (Utf16.lossy s.units)

def JsString.empty : JsString := ⟨[], by decide⟩

/-- `"operator"`. -/
def operator : JsString := ⟨Utf16.encode "operator".toList, by decide⟩

/-! ### Encoding -/

/-- The loop of `encodeVarint`. -/
def encodeVarintLoop : Nat → Nat → List UInt8
  | 0, _ => []
  | fuel + 1, v =>
    if v = 0 then []
    else UInt8.ofNat (if 0 < v / 128 then v % 128 ||| 0x80 else v % 128)
      :: encodeVarintLoop fuel (v / 128)

def encodeVarint (value : Nat) : List UInt8 := if value = 0 then [0] else encodeVarintLoop value value

def encodeLenField (fieldNo : Nat) (bytes : List UInt8) : List UInt8 :=
  UInt8.ofNat (fieldNo <<< 3 ||| 2) :: (encodeVarint bytes.length ++ bytes)

def encodeVarintField (fieldNo value : Nat) : List UInt8 :=
  UInt8.ofNat (fieldNo <<< 3 ||| 0) :: encodeVarint value

def str (fieldNo : Nat) (value : JsString) : List UInt8 := encodeLenField fieldNo value.utf8

/-- `if (value) parts.push(str(fieldNo, value))`. -/
def strIf (fieldNo : Nat) (value : Option JsString) : List UInt8 :=
  match value with
  | none => []
  | some value => if value.units = [] then [] else str fieldNo value

/-- `if (value) parts.push(encodeVarintField(fieldNo, value))`. -/
def varintIf (fieldNo : Nat) (value : Option Nat) : List UInt8 :=
  match value with
  | none => []
  | some value => if value = 0 then [] else encodeVarintField fieldNo value

inductive Request where
  | createSession (displayName : JsString)
  | createTask (sessionId title prompt : JsString) (repoId baseBranch : Option JsString)
  | registerRepo (path cloneUrl : Option JsString)
  | approveEffect (approvalId : JsString) (resolvedBy : Option JsString)
  | denyEffect (approvalId reason : JsString) (resolvedBy : Option JsString)
  | listPendingApprovals
  | getBrowserView (taskId : JsString)
  | setBrowserLease (taskId owner : JsString)
  | runVariants (objective : JsString) (count : Option Nat) (repoId baseBranch : Option JsString)
  | listRecentRepos
  | getSettings
  | updateSettings (provider model baseUrl : Option JsString) (maxTurns : Option Nat)
      (executionMode apiKey : Option JsString)
  | taskEvents (taskId : JsString)
  | steerTask (taskId note : JsString)
  | pauseTask (taskId : JsString)
  | stopTask (taskId : JsString) (reason : Option JsString)
  | getRunDetail (taskId : JsString)
  | getDiff (taskId : JsString)
  | getFleet

def encodeCreateSession (displayName : JsString) : List UInt8 := encodeLenField 1 (str 1 displayName)

def encodeCreateTask (sessionId title prompt : JsString) (repoId baseBranch : Option JsString) :
    List UInt8 :=
  encodeLenField 2 (str 1 sessionId ++ str 2 title ++ str 3 prompt ++ strIf 4 repoId
    ++ strIf 5 baseBranch)

def encodeGetFleet : List UInt8 := encodeLenField 3 []

def encodeGetTaskEvents (taskId : JsString) : List UInt8 := encodeLenField 8 (str 1 taskId)

def encodeSteerTask (taskId note : JsString) : List UInt8 :=
  encodeLenField 10 (str 1 taskId ++ str 2 note)

def encodePauseTask (taskId : JsString) : List UInt8 := encodeLenField 11 (str 1 taskId)

def encodeStopTask (taskId reason : JsString) : List UInt8 :=
  encodeLenField 12 (str 1 taskId ++ str 2 reason)

def encodeGetRunDetail (taskId : JsString) : List UInt8 := encodeLenField 13 (str 1 taskId)

def encodeGetDiff (taskId : JsString) : List UInt8 := encodeLenField 14 (str 1 taskId)

def encodeApproveEffect (approvalId resolvedBy : JsString) : List UInt8 :=
  encodeLenField 20 (str 1 approvalId ++ str 2 resolvedBy)

def encodeDenyEffect (approvalId reason resolvedBy : JsString) : List UInt8 :=
  encodeLenField 21 (str 1 approvalId ++ str 2 reason ++ str 3 resolvedBy)

def encodeListPendingApprovals : List UInt8 := encodeLenField 33 []

def encodeGetBrowserView (taskId : JsString) : List UInt8 := encodeLenField 34 (str 1 taskId)

def encodeSetBrowserLease (taskId owner : JsString) : List UInt8 :=
  encodeLenField 35 (str 1 taskId ++ str 2 owner)

def encodeRunVariants (objective : JsString) (count : Option Nat)
    (repoId baseBranch : Option JsString) : List UInt8 :=
  encodeLenField 28 (str 1 objective ++ varintIf 2 count ++ strIf 3 repoId ++ strIf 4 baseBranch)

def encodeSurfaceRequest : Request → List UInt8
  | .createSession displayName => encodeCreateSession displayName
  | .createTask sessionId title prompt repoId baseBranch =>
    encodeCreateTask sessionId title prompt repoId baseBranch
  | .registerRepo path cloneUrl => encodeLenField 16 (strIf 1 path ++ strIf 2 cloneUrl)
  | .approveEffect approvalId resolvedBy => encodeApproveEffect approvalId (resolvedBy.getD operator)
  | .denyEffect approvalId reason resolvedBy =>
    encodeDenyEffect approvalId reason (resolvedBy.getD operator)
  | .listPendingApprovals => encodeListPendingApprovals
  | .getBrowserView taskId => encodeGetBrowserView taskId
  | .setBrowserLease taskId owner => encodeSetBrowserLease taskId owner
  | .runVariants objective count repoId baseBranch =>
    encodeRunVariants objective count repoId baseBranch
  | .listRecentRepos => encodeLenField 17 []
  | .getSettings => encodeLenField 18 []
  | .updateSettings provider model baseUrl maxTurns executionMode apiKey =>
    encodeLenField 19 (strIf 1 provider ++ strIf 2 model ++ strIf 3 baseUrl ++ varintIf 4 maxTurns
      ++ strIf 5 executionMode ++ strIf 6 apiKey)
  | .taskEvents taskId => encodeGetTaskEvents taskId
  | .steerTask taskId note => encodeSteerTask taskId note
  | .pauseTask taskId => encodePauseTask taskId
  | .stopTask taskId reason => encodeStopTask taskId (reason.getD .empty)
  | .getRunDetail taskId => encodeGetRunDetail taskId
  | .getDiff taskId => encodeGetDiff taskId
  | .getFleet => encodeGetFleet

/-! ### Decoding -/

inductive ClientError where
  | varintTruncated
  | fieldTruncated
  | unsupportedWireType (wireType : Nat)
  /-- `toString("utf8")` of a `BigInt`. -/
  | radix
  /-- `JSON.parse` of something else. -/
  | json
  deriving DecidableEq

inductive Value where
  | bigint (v : Nat)
  | buffer (bytes : List UInt8)

/-- `decodeVarint`, with the bytes from the offset on: the number, and the bytes after it. -/
def decodeVarint : List UInt8 → Except ClientError (Nat × List UInt8)
  | [] => .error .varintTruncated
  | byte :: rest =>
    if byte.toNat < 128 then .ok (byte.toNat, rest)
    else (decodeVarint rest).map (fun r => (byte.toNat % 128 + 128 * r.1, r.2))

def decodeFieldsLoop : Nat → List UInt8 → Except ClientError (List (Nat × Value))
  | _, [] => .ok []
  | 0, _ :: _ => .ok []
  | fuel + 1, b :: buf => do
    let (key, rest) ← decodeVarint (b :: buf)
    let fieldNo := key / 8
    let wireType := key % 8
    if wireType = 0 then
      let (value, rest) ← decodeVarint rest
      return (fieldNo, .bigint value) :: (← decodeFieldsLoop fuel rest)
    else if wireType = 2 then
      let (len, rest) ← decodeVarint rest
      if rest.length < len then throw .fieldTruncated
      else return (fieldNo, .buffer (rest.take len)) :: (← decodeFieldsLoop fuel (rest.drop len))
    else throw (.unsupportedWireType wireType)

def decodeFields (buf : List UInt8) : Except ClientError (List (Nat × Value)) :=
  decodeFieldsLoop buf.length buf

namespace Value

/-- `value.toString("utf8")`. -/
def utf8 : Value → Except ClientError (List Char)
  | .bigint _ => .error .radix
  | .buffer bytes => .ok (Utf8.lossy bytes)

/-- `value.toString()`. -/
def decimal : Value → List Char
  | .bigint v => Nat.toDigits 10 v
  | .buffer bytes => Utf8.lossy bytes

def nearest (v : Nat) : Nat :=
  if v < 2 ^ 53 then v
  else
    let unit := 2 ^ (v.log2 - 52)
    let q := v / unit
    let r := v % unit
    if unit < 2 * r ∨ (2 * r = unit ∧ q % 2 = 1) then (q + 1) * unit else q * unit

/-- `Number(value)`; `none` is not a number. -/
def number : Value → Option Nat
  | .bigint v => some (nearest v)
  | .buffer _ => none

/-- `value !== 0n`. -/
def nonzero : Value → Bool
  | .bigint v => v ≠ 0
  | .buffer _ => true

/-- `decodeFields(value)`. -/
def fields : Value → Except ClientError (List (Nat × Value))
  | .bigint _ => .ok []
  | .buffer bytes => decodeFields bytes

end Value

section Decoders

variable {α β J : Type}

abbrev Setter (α : Type) := α → Value → Except ClientError α

def text (set : α → List Char → α) : Setter α := fun a v => v.utf8.map (set a)

def digits (set : α → List Char → α) : Setter α := fun a v => .ok (set a v.decimal)

def num (set : α → Option Nat → α) : Setter α := fun a v => .ok (set a v.number)

def flag (set : α → Bool → α) : Setter α := fun a v => .ok (set a v.nonzero)

def nested (decode : Value → Except ClientError β) (set : α → β → α) : Setter α := fun a v =>
  (decode v).map (set a)

def setField (setters : List (Nat × Setter α)) (acc : α) (field : Nat × Value) :
    Except ClientError α :=
  match setters.lookup field.1 with
  | some set => set acc field.2
  | none => .ok acc

/-- A decoder: its fields by their numbers, from the defaults. -/
def decodeInto (init : α) (setters : List (Nat × Setter α)) (v : Value) : Except ClientError α := do
  (← v.fields).foldlM (setField setters) init

end Decoders

open Surface (RunStepView TurnView RunDetailView ApprovalView BrowserViewView RecentRepoView)

/-! ### Decoded messages -/

structure TaskObject where
  taskId : List Char
  sessionId : List Char
  title : List Char
  state : Option Nat
  createdAt : List Char
  generation : List Char
  parentTaskId : List Char

structure FleetObject where
  tasks : List TaskObject
  defaultSessionId : List Char

structure EventObject (J : Type) where
  eventId : List Char
  aggregateId : List Char
  generation : List Char
  eventType : List Char
  payload : Option J

structure EventsObject (J : Type) where
  taskId : List Char
  events : List (EventObject J)

structure DiffFileObject where
  path : List Char
  additions : List Char
  deletions : List Char

structure DiffObject where
  taskId : List Char
  branch : List Char
  baseRevision : List Char
  files : List DiffFileObject

structure SettingsObject where
  provider : List Char
  model : List Char
  baseUrl : List Char
  maxTurns : Option Nat
  executionMode : List Char
  hasApiKey : Bool

structure ResponseObject (J : Type) where
  ok : Bool
  error : List Char
  fleet : FleetObject
  task : Option TaskObject
  sessionId : List Char
  taskEvents : Option (EventsObject J)
  runDetail : Option RunDetailView
  diff : Option DiffObject
  recentRepos : Option (List RecentRepoView)
  repo : Option RecentRepoView
  settings : Option SettingsObject
  pendingApprovals : Option (List ApprovalView)
  browserView : Option BrowserViewView

/-! ### Message decoders -/

def decodeRunStepView : Value → Except ClientError RunStepView :=
  decodeInto ⟨[], [], [], [], []⟩ [
    (1, text fun step s => { step with stepId := s }),
    (2, text fun step s => { step with turnId := s }),
    (3, text fun step s => { step with stepType := s }),
    (4, text fun step s => { step with state := s }),
    (5, text fun step s => { step with failureCode := s })]

def decodeTurnView : Value → Except ClientError TurnView :=
  decodeInto ⟨[], [], []⟩ [
    (1, text fun turn s => { turn with turnId := s }),
    (2, text fun turn s => { turn with state := s }),
    (3, nested decodeRunStepView fun turn step => { turn with steps := turn.steps ++ [step] })]

def decodeRunDetailView : Value → Except ClientError RunDetailView :=
  decodeInto ⟨[], [], [], []⟩ [
    (1, text fun detail s => { detail with taskId := s }),
    (2, nested decodeTurnView fun detail turn => { detail with turns := detail.turns ++ [turn] }),
    (3, text fun detail s => { detail with runState := s }),
    (4, text fun detail s => { detail with failureCode := s })]

def decodeDiffFileView : Value → Except ClientError DiffFileObject :=
  decodeInto ⟨[], ['0'], ['0']⟩ [
    (1, text fun file s => { file with path := s }),
    (2, digits fun file s => { file with additions := s }),
    (3, digits fun file s => { file with deletions := s })]

def decodeDiffView : Value → Except ClientError DiffObject :=
  decodeInto ⟨[], [], [], []⟩ [
    (1, text fun diff s => { diff with taskId := s }),
    (2, text fun diff s => { diff with branch := s }),
    (3, text fun diff s => { diff with baseRevision := s }),
    (4, nested decodeDiffFileView fun diff file => { diff with files := diff.files ++ [file] })]

section Events

variable {J : Type} (jsonParse : List Char → Option J)

/-- `event.payload = JSON.parse(v.toString("utf8"))`. -/
def setPayload : Setter (EventObject J) := fun event v => do
  match jsonParse (← v.utf8) with
  | some payload => return { event with payload := some payload }
  | none => throw .json

def decodeEvent : Value → Except ClientError (EventObject J) :=
  decodeInto ⟨[], [], ['0'], [], none⟩ [
    (1, text fun event s => { event with eventId := s }),
    (3, text fun event s => { event with aggregateId := s }),
    (4, digits fun event s => { event with generation := s }),
    (5, text fun event s => { event with eventType := s }), (7, setPayload jsonParse)]

def decodeTaskEvents : Value → Except ClientError (EventsObject J) :=
  decodeInto ⟨[], []⟩ [
    (1, text fun result s => { result with taskId := s }),
    (2, nested (decodeEvent jsonParse) fun result event =>
      { result with events := result.events ++ [event] })]

end Events

def decodeTaskView : Value → Except ClientError TaskObject :=
  decodeInto ⟨[], [], [], some 0, [], ['0'], []⟩ [
    (1, text fun view s => { view with taskId := s }),
    (2, text fun view s => { view with sessionId := s }),
    (3, text fun view s => { view with title := s }),
    (4, num fun view n => { view with state := n }),
    (5, text fun view s => { view with createdAt := s }),
    (6, digits fun view s => { view with generation := s }),
    (7, text fun view s => { view with parentTaskId := s })]

def decodeFleet : Value → Except ClientError FleetObject :=
  decodeInto ⟨[], []⟩ [
    (1, nested decodeTaskView fun fleet task => { fleet with tasks := fleet.tasks ++ [task] }),
    (2, text fun fleet s => { fleet with defaultSessionId := s })]

def decodeApprovalView : Value → Except ClientError ApprovalView :=
  decodeInto ⟨[], [], [], [], []⟩ [
    (1, text fun view s => { view with approvalId := s }),
    (2, text fun view s => { view with taskId := s }),
    (3, text fun view s => { view with tool := s }),
    (4, text fun view s => { view with scope := s }),
    (5, text fun view s => { view with createdAt := s })]

def decodePendingApprovalList : Value → Except ClientError (List ApprovalView) :=
  decodeInto [] [(1, nested decodeApprovalView fun approvals view => approvals ++ [view])]

def decodeBrowserView : Value → Except ClientError BrowserViewView :=
  decodeInto ⟨[], [], [], [], []⟩ [
    (1, text fun view s => { view with taskId := s }),
    (2, text fun view s => { view with url := s }),
    (3, text fun view s => { view with title := s }),
    (4, text fun view s => { view with pngBase64 := s }),
    (5, text fun view s => { view with lease := s })]

def decodeSettingsView : Value → Except ClientError SettingsObject :=
  decodeInto ⟨[], [], [], some 0, [], false⟩ [
    (1, text fun settings s => { settings with provider := s }),
    (2, text fun settings s => { settings with model := s }),
    (3, text fun settings s => { settings with baseUrl := s }),
    (4, num fun settings n => { settings with maxTurns := n }),
    (5, text fun settings s => { settings with executionMode := s }),
    (6, flag fun settings b => { settings with hasApiKey := b })]

def decodeRecentRepoView : Value → Except ClientError RecentRepoView :=
  decodeInto ⟨[], [], [], [], [], []⟩ [
    (1, text fun repo s => { repo with repoId := s }),
    (2, text fun repo s => { repo with path := s }),
    (3, text fun repo s => { repo with cloneUrl := s }),
    (4, text fun repo s => { repo with defaultBranch := s }),
    (5, text fun repo s => { repo with registeredAt := s }),
    (6, text fun repo s => { repo with lastUsedAt := s })]

def decodeRecentRepoList : Value → Except ClientError (List RecentRepoView) :=
  decodeInto [] [(1, nested decodeRecentRepoView fun repos repo => repos ++ [repo])]

section Response

variable {J : Type} (jsonParse : List Char → Option J)

def responseSetters : List (Nat × Setter (ResponseObject J)) := [
  (1, flag fun response b => { response with ok := b }),
  (2, text fun response s => { response with error := s }),
  (3, nested decodeFleet fun response x => { response with fleet := x }),
  (4, nested decodeTaskView fun response x => { response with task := some x }),
  (5, text fun response s => { response with sessionId := s }),
  (6, nested (decodeTaskEvents jsonParse) fun response x => { response with taskEvents := some x }),
  (8, nested decodeRunDetailView fun response x => { response with runDetail := some x }),
  (9, nested decodeDiffView fun response x => { response with diff := some x }),
  (11, nested decodeRecentRepoList fun response x => { response with recentRepos := some x }),
  (12, nested decodeRecentRepoView fun response x => { response with repo := some x }),
  (13, nested decodeSettingsView fun response x => { response with settings := some x }),
  (18, nested decodePendingApprovalList fun response x =>
    { response with pendingApprovals := some x }),
  (19, nested decodeBrowserView fun response x => { response with browserView := some x })]

def decodeSurfaceResponse (buf : List UInt8) : Except ClientError (ResponseObject J) :=
  decodeInto ⟨false, [], ⟨[], []⟩, none, [], none, none, none, none, none, none, none, none⟩
    (responseSetters jsonParse) (.buffer buf)

end Response

end Desktop

end Modbit
