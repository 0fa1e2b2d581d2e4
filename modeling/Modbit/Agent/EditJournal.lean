import Modbit.Agent.WorktreeTools
import Modbit.Checkpoint.DeltaJournal
import Modbit.Lib.Run
import Modbit.Workspace.Resolution

/-!
# The worktree journal writer

`WorktreeJournalWriter`: every edit that went through, and every cursor of a surface, is noted in the
run's journal, which is then persisted as an event of the run under an epoch.  A call takes its epoch
first and the journal's lock after that; it keeps the lock while it writes the checkpoint and appends
the event, so the events of the writer go to the run's stream in the order they are written here.

`World` is the worktree with its edits and the calls they make, in steps; `taken` is the order in
which the calls came to have the lock.
-/

namespace Modbit

open Lib Workspace WorktreeTools Checkpoint

namespace EditJournal

/-- What a call is to note: an edit of a file, or a cursor. -/
inductive Job where
  | edit (file : FilePath) (e : AppliedEdit)
  | surface (m : CursorMeta)
  deriving DecidableEq

def Job.subject : Job → FilePath ⊕ (SurfaceKind × String)
  | .edit file _ => .inl file
  | .surface m => .inr m.key

inductive Phase where
  | called
  | reserved (epoch : Nat)
  | updated (epoch : Nat) (journalJson : String)
  | written (epoch : Nat) (journalJson : String)
  | returned
  deriving DecidableEq

def note (j : DeltaJournal) : Job → DeltaJournal
  | .edit _ e => j.record e.path e.before (some e.after)
  | .surface m => j.recordSurface m

structure World where
  tools : Tools
  nextEpoch : Nat
  inner : DeltaJournal
  checkpoints : CheckpointStore
  /-- The call that has the journal's lock. -/
  holder : Option Nat
  /-- The calls in the order they were made, and how far they are. -/
  jobs : List Job
  phases : List Phase
  /-- The persisted events: epoch and journal. -/
  events : List (Nat × String)
  taken : List Nat

inductive Event where
  | apply (args : ApplyArgs)
  /-- Anything else that happens to the worktree. -/
  | worktree (ws : WorkspaceFileService)
  | surface (m : CursorMeta)
  | reserve (i : Nat)
  | update (i : Nat)
  | write (i : Nat)
  | append (i : Nat)

def MAX_JOURNAL_BYTES : Nat := 256 * 1024

namespace World

def start (tools : Tools) : World := ⟨tools, 1, .default, .new, none, [], [], [], []⟩

def call (w : World) (job : Job) : World :=
  { w with jobs := w.jobs ++ [job], phases := w.phases ++ [.called] }

/-- The edit that `change.apply` makes with some arguments, and its file. -/
def edited (w : World) (args : ApplyArgs) : Option (FilePath × AppliedEdit) :=
  match (w.tools.changeApply args).2 with
  | .ok (_, some e) => (w.tools.ws.resolve e.path).toOption.map (fun file => (file, e))
  | _ => none

/-- `*journal` with the call's note, serialized. -/
def noted (w : World) (job : Job) : String := (note w.inner job).text

def step (w : World) : Event → World × Unit
  | .apply args =>
    let w' := { w with tools := (w.tools.changeApply args).1 }
    (match w.edited args with
    | some (file, e) => w'.call (.edit file e)
    | none => w', ())
  | .worktree ws => ({ w with tools := { w.tools with ws := ws } }, ())
  | .surface m => (w.call (.surface m), ())
  | .reserve i =>
    (match w.phases[i]? with
    | some .called =>
      { w with nextEpoch := w.nextEpoch + 1, phases := w.phases.set i (.reserved w.nextEpoch) }
    | _ => w, ())
  | .update i =>
    (match w.holder, w.jobs[i]?, w.phases[i]? with
    | none, some job, some (.reserved epoch) =>
      let w' := { w with inner := note w.inner job, taken := w.taken ++ [i] }
      if MAX_JOURNAL_BYTES < (w.noted job).utf8ByteSize then
        { w' with phases := w.phases.set i .returned }
      else
        { w' with holder := some i, phases := w.phases.set i (.updated epoch (w.noted job)) }
    | _, _, _ => w, ())
  | .write i =>
    (match w.phases[i]? with
    | some (.updated epoch journalJson) =>
      let out := w.checkpoints.write epoch journalJson
      if out.2 then
        { w with checkpoints := out.1, phases := w.phases.set i (.written epoch journalJson) }
      else
        { w with checkpoints := out.1, holder := none, phases := w.phases.set i .returned }
    | _ => w, ())
  | .append i =>
    (match w.phases[i]? with
    | some (.written epoch journalJson) =>
      { w with
        events := w.events ++ [(epoch, journalJson)]
        holder := none
        phases := w.phases.set i .returned }
    | _ => w, ())

/-! ### What is promised -/

/-- The edits of a file, in the order they were made. -/
def editsOf (w : World) (file : FilePath) : List AppliedEdit :=
  w.jobs.filterMap (fun
    | .edit f e => if f = file then some e else none
    | .surface _ => none)

/-- The cursors of a surface and handle, in the order they were recorded. -/
def cursorsOf (w : World) (key : SurfaceKind × String) : List CursorMeta :=
  w.jobs.filterMap (fun
    | .edit _ _ => none
    | .surface m => if m.key = key then some m else none)

/-- An edit of the file was made under the path. -/
def Spells (w : World) (path : String) (file : FilePath) : Prop := ∃ e ∈ w.editsOf file, e.path = path

/-- The journal says of every file that was edited, under one path, what it was before its first edit
and is after its last one; it knows no other path; and it has the latest cursors. -/
structure Exact (w : World) (j : DeltaJournal) (files : OrdMap String (List UInt8)) : Prop where
  last : ∀ file e, (w.editsOf file).getLast? = some e →
    ∃ path, w.Spells path file ∧ files.find? path = some e.after ∧
      ∀ path' ∈ files.keys, w.Spells path' file → path' = path
  first : ∀ file e, (w.editsOf file).head? = some e →
    ∃ path, w.Spells path file ∧ j.baseline.find? path = some e.before ∧
      ∀ path' ∈ j.baseline.keys, w.Spells path' file → path' = path
  known : ∀ path, path ∈ files.keys ∨ path ∈ j.baseline.keys →
    ∃ file, w.Spells path file ∧ ∀ file', w.Spells path file' → file' = file
  surfaces : ∀ key, j.surfaces.filter (fun m => m.key = key) = (w.cursorsOf key).getLast?.toList

/-- Once all calls have returned, the last persisted journal restores what they noted. -/
def Restorable (w : World) : Prop :=
  w.jobs ≠ [] → (∀ phase ∈ w.phases, phase = .returned) →
    ∃ epoch j state, w.events.getLast? = some (epoch, j.text) ∧ j.restore = .ok state ∧
      w.Exact j state.files

/-- The epochs of the persisted events go up. -/
def EpochsIncrease (w : World) : Prop := (w.events.map Prod.fst).Pairwise (· < ·)

def Fits (w : World) : Event → Prop
  | .update i => ∀ job, w.jobs[i]? = some job → (w.noted job).utf8ByteSize ≤ MAX_JOURNAL_BYTES
  | _ => True

/-- A file is edited under one path, no other file is edited under it, and the calls come to the lock
in the order of their epochs, those about one subject in the order they were made. -/
def Orderly (w : World) : Event → Prop
  | .apply args => ∀ file e, w.edited args = some (file, e) →
      ∀ file' e', Job.edit file' e' ∈ w.jobs → (file' = file ↔ e'.path = e.path)
  | .update i => ∀ epoch, w.phases[i]? = some (.reserved epoch) →
      (∀ j epoch' : Nat, w.phases[j]? = some (.reserved epoch') → epoch ≤ epoch') ∧
        ∀ j < i, w.jobs[j]?.map Job.subject = w.jobs[i]?.map Job.subject → j ∈ w.taken
  | _ => True

end World

end EditJournal

end Modbit
