import Modbit.Lib.Protobuf

/-!
# The messages of the surface protocol

`proto/modbit/protocol/v1/surface.proto`, with the commands of `commands.proto` and the event
envelope of `events.proto`.  A request is one of the cases of a oneof; the cases that the
desktop never sends are their field numbers.  `decodeRequest` reads a request by the rules of
protobuf: the last value of a field counts, a case that comes again is merged, other fields
are passed over.

A response is written by `SurfaceResponse.fields`: fields in the order of their numbers, and
those with their default values left out.  Messages that the desktop does not look into are
their bytes.
-/

namespace Modbit

open Lib

namespace Surface

open Protobuf

/-! ### Requests -/

inductive SurfaceRequest (S : Type) where
  | createSession (displayName : S)
  | createTask (sessionId title prompt repoId baseBranch parentTaskId writeScope : S)
  | getFleet
  | getTaskEvents (taskId : S)
  | steerTask (taskId note : S)
  | pauseTask (taskId : S)
  | stopTask (taskId reason : S)
  | getRunDetail (taskId : S)
  | getDiff (taskId : S)
  | registerRepo (path cloneUrl : S)
  | listRecentRepos
  | getSettings
  | updateSettings (provider model baseUrl : S) (maxTurns : Nat) (executionMode apiKey : S)
  | approveEffect (approvalId resolvedBy : S)
  | denyEffect (approvalId reason resolvedBy : S)
  | runVariants (objective : S) (count : Nat) (repoId baseBranch : S)
  | listPendingApprovals
  | getBrowserView (taskId : S)
  | setBrowserLease (taskId owner : S)
  /-- A case that the desktop never sends. -/
  | other (number : Nat)
  | unset
  deriving DecidableEq

namespace SurfaceRequest

variable {S T : Type}

def map (f : S → T) : SurfaceRequest S → SurfaceRequest T
  | .createSession displayName => .createSession (f displayName)
  | .createTask sessionId title prompt repoId baseBranch parentTaskId writeScope =>
    .createTask (f sessionId) (f title) (f prompt) (f repoId) (f baseBranch) (f parentTaskId)
      (f writeScope)
  | .getFleet => .getFleet
  | .getTaskEvents taskId => .getTaskEvents (f taskId)
  | .steerTask taskId note => .steerTask (f taskId) (f note)
  | .pauseTask taskId => .pauseTask (f taskId)
  | .stopTask taskId reason => .stopTask (f taskId) (f reason)
  | .getRunDetail taskId => .getRunDetail (f taskId)
  | .getDiff taskId => .getDiff (f taskId)
  | .registerRepo path cloneUrl => .registerRepo (f path) (f cloneUrl)
  | .listRecentRepos => .listRecentRepos
  | .getSettings => .getSettings
  | .updateSettings provider model baseUrl maxTurns executionMode apiKey =>
    .updateSettings (f provider) (f model) (f baseUrl) maxTurns (f executionMode) (f apiKey)
  | .approveEffect approvalId resolvedBy => .approveEffect (f approvalId) (f resolvedBy)
  | .denyEffect approvalId reason resolvedBy => .denyEffect (f approvalId) (f reason) (f resolvedBy)
  | .runVariants objective count repoId baseBranch =>
    .runVariants (f objective) count (f repoId) (f baseBranch)
  | .listPendingApprovals => .listPendingApprovals
  | .getBrowserView taskId => .getBrowserView (f taskId)
  | .setBrowserLease taskId owner => .setBrowserLease (f taskId) (f owner)
  | .other number => .other number
  | .unset => .unset

def strings : SurfaceRequest S → List S
  | .createSession displayName => [displayName]
  | .createTask sessionId title prompt repoId baseBranch parentTaskId writeScope =>
    [sessionId, title, prompt, repoId, baseBranch, parentTaskId, writeScope]
  | .getTaskEvents taskId | .pauseTask taskId | .getRunDetail taskId | .getDiff taskId
  | .getBrowserView taskId => [taskId]
  | .steerTask taskId note => [taskId, note]
  | .stopTask taskId reason => [taskId, reason]
  | .registerRepo path cloneUrl => [path, cloneUrl]
  | .updateSettings provider model baseUrl _ executionMode apiKey =>
    [provider, model, baseUrl, executionMode, apiKey]
  | .approveEffect approvalId resolvedBy => [approvalId, resolvedBy]
  | .denyEffect approvalId reason resolvedBy => [approvalId, reason, resolvedBy]
  | .runVariants objective _ repoId baseBranch => [objective, repoId, baseBranch]
  | .setBrowserLease taskId owner => [taskId, owner]
  | .getFleet | .listRecentRepos | .getSettings | .listPendingApprovals | .other _ | .unset => []

theorem map_eq_self {f : S → S} (m : SurfaceRequest S) :
    m.map f = m ↔ ∀ s ∈ m.strings, f s = s := by
  cases m <;> simp [map, strings]

theorem map_map {U : Type} (f : S → T) (g : T → U) (m : SurfaceRequest S) :
    (m.map f).map g = m.map (g ∘ f) := by
  cases m <;> rfl

end SurfaceRequest

/-! ### Reading requests -/

/-- A string field: its last value, which must be UTF-8. -/
def stringField (fs : List Field) (k : Nat) : Option (List Char) :=
  (fs.filter (·.number = k)).foldlM (fun _ f =>
    match f.value with
    | .len b => Utf8.decode b
    | _ => none) []

def uint32Field (fs : List Field) (k : Nat) : Option Nat :=
  (fs.filter (·.number = k)).foldlM (fun _ f =>
    match f.value with
    | .varint v => some (v % 2 ^ 32)
    | _ => none) 0

def message (number : Nat) (fs : List Field) : Option (SurfaceRequest (List Char)) := do
  match number with
  | 1 => return .createSession (← stringField fs 1)
  | 2 =>
    return .createTask (← stringField fs 1) (← stringField fs 2) (← stringField fs 3)
      (← stringField fs 4) (← stringField fs 5) (← stringField fs 6) (← stringField fs 7)
  | 3 => some .getFleet
  | 8 => return .getTaskEvents (← stringField fs 1)
  | 10 => return .steerTask (← stringField fs 1) (← stringField fs 2)
  | 11 => return .pauseTask (← stringField fs 1)
  | 12 => return .stopTask (← stringField fs 1) (← stringField fs 2)
  | 13 => return .getRunDetail (← stringField fs 1)
  | 14 => return .getDiff (← stringField fs 1)
  | 16 => return .registerRepo (← stringField fs 1) (← stringField fs 2)
  | 17 => some .listRecentRepos
  | 18 => some .getSettings
  | 19 =>
    return .updateSettings (← stringField fs 1) (← stringField fs 2) (← stringField fs 3)
      (← uint32Field fs 4) (← stringField fs 5) (← stringField fs 6)
  | 20 => return .approveEffect (← stringField fs 1) (← stringField fs 2)
  | 21 => return .denyEffect (← stringField fs 1) (← stringField fs 2) (← stringField fs 3)
  | 28 =>
    return .runVariants (← stringField fs 1) (← uint32Field fs 2) (← stringField fs 3)
      (← stringField fs 4)
  | 33 => some .listPendingApprovals
  | 34 => return .getBrowserView (← stringField fs 1)
  | 35 => return .setBrowserLease (← stringField fs 1) (← stringField fs 2)
  | n => some (.other n)

def lastCase : Nat := 37

def oneofStep (current : Option (Nat × List Field)) (f : Field) :
    Option (Option (Nat × List Field)) :=
  if f.number ≤ lastCase then
    match f.value with
    | .len b => (parse b).map (fun fs =>
        match current with
        | some (n, before) => if n = f.number then some (n, before ++ fs) else some (f.number, fs)
        | none => some (f.number, fs))
    | _ => none
  else some current

def decodeRequest (bytes : List UInt8) : Option (SurfaceRequest (List Char)) :=
  (parse bytes).bind fun fs => (fs.foldlM oneofStep none).bind fun current =>
    match current with
    | none => some .unset
    | some (number, fs) => message number fs

/-! ### Writing responses -/

def strField (k : Nat) (s : List Char) : List Field := if s = [] then [] else [⟨k, .len (Utf8.encode s)⟩]

def bytesField (k : Nat) (b : List UInt8) : List Field := if b = [] then [] else [⟨k, .len b⟩]

def uintField (k v : Nat) : List Field := if v = 0 then [] else [⟨k, .varint v⟩]

def boolField (k : Nat) (b : Bool) : List Field := if b then [⟨k, .varint 1⟩] else []

def messageField (k : Nat) (b : Option (List UInt8)) : List Field :=
  match b with
  | none => []
  | some b => [⟨k, .len b⟩]

def eachField (k : Nat) (bs : List (List UInt8)) : List Field := bs.map (fun b => ⟨k, .len b⟩)

inductive TaskStatus where
  | unspecified | queued | started | waiting | needsAttention | readyForReview | completed
  | failed | cancelled | created
  deriving DecidableEq

def TaskStatus.toNat : TaskStatus → Nat
  | .unspecified => 0
  | .queued => 1
  | .started => 2
  | .waiting => 3
  | .needsAttention => 4
  | .readyForReview => 5
  | .completed => 6
  | .failed => 7
  | .cancelled => 8
  | .created => 9

structure TaskView where
  taskId : List Char
  sessionId : List Char
  title : List Char
  state : TaskStatus
  createdAt : List Char
  generation : UInt64
  parentTaskId : List Char

def TaskView.fields (m : TaskView) : List Field :=
  strField 1 m.taskId ++ strField 2 m.sessionId ++ strField 3 m.title ++ uintField 4 m.state.toNat
    ++ strField 5 m.createdAt ++ uintField 6 m.generation.toNat ++ strField 7 m.parentTaskId

structure Fleet where
  tasks : List TaskView
  defaultSessionId : List Char

def Fleet.fields (m : Fleet) : List Field :=
  eachField 1 (m.tasks.map (fun t => render t.fields)) ++ strField 2 m.defaultSessionId

structure EventEnvelope where
  eventId : List Char
  tenantId : List Char
  aggregateId : List Char
  generation : UInt64
  eventType : List Char
  schemaVersion : Option (List UInt8)
  payload : List UInt8
  occurredAt : Option (List UInt8)

def EventEnvelope.fields (m : EventEnvelope) : List Field :=
  strField 1 m.eventId ++ strField 2 m.tenantId ++ strField 3 m.aggregateId
    ++ uintField 4 m.generation.toNat ++ strField 5 m.eventType ++ messageField 6 m.schemaVersion
    ++ bytesField 7 m.payload ++ messageField 8 m.occurredAt

structure TaskEvents where
  taskId : List Char
  events : List EventEnvelope

def TaskEvents.fields (m : TaskEvents) : List Field :=
  strField 1 m.taskId ++ eachField 2 (m.events.map (fun e => render e.fields))

structure RunStepView where
  stepId : List Char
  turnId : List Char
  stepType : List Char
  state : List Char
  failureCode : List Char

def RunStepView.fields (m : RunStepView) : List Field :=
  strField 1 m.stepId ++ strField 2 m.turnId ++ strField 3 m.stepType ++ strField 4 m.state
    ++ strField 5 m.failureCode

structure TurnView where
  turnId : List Char
  state : List Char
  steps : List RunStepView

def TurnView.fields (m : TurnView) : List Field :=
  strField 1 m.turnId ++ strField 2 m.state ++ eachField 3 (m.steps.map (fun s => render s.fields))

structure RunDetailView where
  taskId : List Char
  turns : List TurnView
  runState : List Char
  failureCode : List Char

def RunDetailView.fields (m : RunDetailView) : List Field :=
  strField 1 m.taskId ++ eachField 2 (m.turns.map (fun t => render t.fields)) ++ strField 3 m.runState
    ++ strField 4 m.failureCode

structure DiffFileView where
  path : List Char
  additions : UInt64
  deletions : UInt64

def DiffFileView.fields (m : DiffFileView) : List Field :=
  strField 1 m.path ++ uintField 2 m.additions.toNat ++ uintField 3 m.deletions.toNat

structure DiffView where
  taskId : List Char
  branch : List Char
  baseRevision : List Char
  files : List DiffFileView

def DiffView.fields (m : DiffView) : List Field :=
  strField 1 m.taskId ++ strField 2 m.branch ++ strField 3 m.baseRevision
    ++ eachField 4 (m.files.map (fun f => render f.fields))

structure RecentRepoView where
  repoId : List Char
  path : List Char
  cloneUrl : List Char
  defaultBranch : List Char
  registeredAt : List Char
  lastUsedAt : List Char

def RecentRepoView.fields (m : RecentRepoView) : List Field :=
  strField 1 m.repoId ++ strField 2 m.path ++ strField 3 m.cloneUrl ++ strField 4 m.defaultBranch
    ++ strField 5 m.registeredAt ++ strField 6 m.lastUsedAt

structure RecentRepoList where
  repos : List RecentRepoView

def RecentRepoList.fields (m : RecentRepoList) : List Field :=
  eachField 1 (m.repos.map (fun r => render r.fields))

structure SettingsView where
  provider : List Char
  model : List Char
  baseUrl : List Char
  maxTurns : UInt32
  executionMode : List Char
  hasApiKey : Bool

def SettingsView.fields (m : SettingsView) : List Field :=
  strField 1 m.provider ++ strField 2 m.model ++ strField 3 m.baseUrl ++ uintField 4 m.maxTurns.toNat
    ++ strField 5 m.executionMode ++ boolField 6 m.hasApiKey

structure ApprovalView where
  approvalId : List Char
  taskId : List Char
  tool : List Char
  scope : List Char
  createdAt : List Char

def ApprovalView.fields (m : ApprovalView) : List Field :=
  strField 1 m.approvalId ++ strField 2 m.taskId ++ strField 3 m.tool ++ strField 4 m.scope
    ++ strField 5 m.createdAt

structure PendingApprovalList where
  approvals : List ApprovalView

def PendingApprovalList.fields (m : PendingApprovalList) : List Field :=
  eachField 1 (m.approvals.map (fun a => render a.fields))

structure BrowserViewView where
  taskId : List Char
  url : List Char
  title : List Char
  pngBase64 : List Char
  lease : List Char

def BrowserViewView.fields (m : BrowserViewView) : List Field :=
  strField 1 m.taskId ++ strField 2 m.url ++ strField 3 m.title ++ strField 4 m.pngBase64
    ++ strField 5 m.lease

structure SurfaceResponse where
  ok : Bool
  error : List Char
  fleet : Option Fleet
  task : Option TaskView
  sessionId : List Char
  taskEvents : Option TaskEvents
  codeView : Option (List UInt8)
  runDetail : Option RunDetailView
  diff : Option DiffView
  outputChunk : Option (List UInt8)
  recentRepos : Option RecentRepoList
  repo : Option RecentRepoView
  settings : Option SettingsView
  diffHunks : Option (List UInt8)
  agentResult : Option (List UInt8)
  automations : Option (List UInt8)
  reviewChecklist : Option (List UInt8)
  pendingApprovals : Option PendingApprovalList
  browserView : Option BrowserViewView
  runCosts : Option (List UInt8)
  checkpointAttach : Option (List UInt8)

def SurfaceResponse.fields (m : SurfaceResponse) : List Field :=
  [boolField 1 m.ok, strField 2 m.error, messageField 3 (m.fleet.map (fun x => render x.fields)),
    messageField 4 (m.task.map (fun x => render x.fields)), strField 5 m.sessionId,
    messageField 6 (m.taskEvents.map (fun x => render x.fields)), messageField 7 m.codeView,
    messageField 8 (m.runDetail.map (fun x => render x.fields)),
    messageField 9 (m.diff.map (fun x => render x.fields)), messageField 10 m.outputChunk,
    messageField 11 (m.recentRepos.map (fun x => render x.fields)),
    messageField 12 (m.repo.map (fun x => render x.fields)),
    messageField 13 (m.settings.map (fun x => render x.fields)), messageField 14 m.diffHunks,
    messageField 15 m.agentResult, messageField 16 m.automations, messageField 17 m.reviewChecklist,
    messageField 18 (m.pendingApprovals.map (fun x => render x.fields)),
    messageField 19 (m.browserView.map (fun x => render x.fields)), messageField 20 m.runCosts,
    messageField 21 m.checkpointAttach].flatten

end Surface

end Modbit
