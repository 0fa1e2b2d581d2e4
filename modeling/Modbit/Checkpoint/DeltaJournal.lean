import Modbit.Lib.JsonText
import Modbit.Lib.OrdMap
import Mathlib.Data.List.Induction
import Mathlib.Data.String.Basic

/-!
# The worktree journal of a run

`crates/checkpoint`: a journal is the content of files before a run first edited them, the edits in
order, and a cursor for every surface.  `restore` replays it; where no edit deletes a file, what it
gives a path is the last edit of the path (`restore_of_edits`).  The text of a journal begins with its
first path (`readFirst_text`).

`CheckpointStore` takes epochs that go up and refuses any other.
-/

namespace Modbit

open Lib List

namespace Checkpoint

/-! ### Journals -/

structure WorktreeDelta where
  path : String
  /-- `none` is a deletion. -/
  content : Option (List UInt8)
  deriving DecidableEq

structure Cursors where
  runtimeSeq : Nat
  evidenceSeq : Nat
  deriving DecidableEq

inductive SurfaceKind where
  | terminal | browser | sandbox
  deriving DecidableEq

structure CursorMeta where
  surface : SurfaceKind
  handle : String
  position : Nat
  revision : Nat
  live : Bool
  deriving DecidableEq

def CursorMeta.key (m : CursorMeta) : SurfaceKind × String := (m.surface, m.handle)

structure DeltaJournal where
  baseline : OrdMap String (List UInt8)
  deltas : List WorktreeDelta
  cursors : Cursors
  surfaces : List CursorMeta

inductive JournalError where
  | missingBaseline (path : String)
  deriving DecidableEq

structure RestoredState where
  files : OrdMap String (List UInt8)
  cursors : Cursors

namespace DeltaJournal

def default : DeltaJournal := ⟨.empty, [], ⟨0, 0⟩, []⟩

def applyDelta (files : OrdMap String (List UInt8)) (delta : WorktreeDelta) :
    Except JournalError (OrdMap String (List UInt8)) :=
  match delta.content with
  | some bytes => .ok (files.insert delta.path bytes)
  | none =>
    match files.find? delta.path with
    | some _ => .ok (files.erase delta.path)
    | none => .error (.missingBaseline delta.path)

def restore (j : DeltaJournal) : Except JournalError RestoredState :=
  (j.deltas.foldlM applyDelta j.baseline).map (fun files => ⟨files, j.cursors⟩)

/-! ### The text -/

def bytesJson (bytes : List UInt8) : Json := .arr (bytes.map (fun b => .num b.toNat))

def surfaceName : SurfaceKind → String
  | .terminal => "terminal"
  | .browser => "browser"
  | .sandbox => "sandbox"

def toJson (j : DeltaJournal) : Json :=
  .obj [("baseline", .obj (j.baseline.entries.map (fun e => (e.1, bytesJson e.2)))),
    ("deltas", .arr (j.deltas.map (fun d =>
      .obj [("path", .str d.path), ("content", (d.content.map bytesJson).getD .null)]))),
    ("cursors", .obj [("runtime_seq", .num j.cursors.runtimeSeq),
      ("evidence_seq", .num j.cursors.evidenceSeq)]),
    ("surfaces", .arr (j.surfaces.map (fun m =>
      .obj [("surface", .str (surfaceName m.surface)), ("handle", .str m.handle),
        ("position", .num m.position), ("revision", .num m.revision), ("live", .bool m.live)])))]

/-- `serde_json::to_string`. -/
def text (j : DeltaJournal) : String := j.toJson.render

/-! ### What an edit and a cursor do -/

/-- The journal part of `record`: the first content of a path is its baseline. -/
def record (j : DeltaJournal) (path : String) (baseline : List UInt8) (delta : Option (List UInt8)) :
    DeltaJournal :=
  let j := { j with
    baseline := if (j.baseline.find? path).isSome then j.baseline else j.baseline.insert path baseline }
  match delta with
  | some content => { j with deltas := j.deltas ++ [⟨path, some content⟩] }
  | none => j

/-- The journal part of `record_surface`: the latest cursor of a surface and handle wins. -/
def recordSurface (j : DeltaJournal) (m : CursorMeta) : DeltaJournal :=
  { j with surfaces := j.surfaces.filter (fun other => other.key ≠ m.key) ++ [m] }

theorem restore_of_edits (j : DeltaJournal) (edits : List (String × List UInt8))
    (h : j.deltas = edits.map (fun e => ⟨e.1, some e.2⟩)) :
    j.restore = .ok ⟨j.baseline.insertAll edits, j.cursors⟩ := by
  have hfold : ∀ (edits : List (String × List UInt8)) (files : OrdMap String (List UInt8)),
      (edits.map (fun e => WorktreeDelta.mk e.1 (some e.2))).foldlM applyDelta files
        = .ok (files.insertAll edits) := by
    intro edits
    induction edits with
    | nil => exact fun _ => rfl
    | cons e edits ih => exact fun files => ih (files.insert e.1 e.2)
  rw [restore, h, hfold]
  rfl

/-! ### The first path of a text -/

theorem text_baseline (j : DeltaJournal) : ∃ rest, j.text.toList
    = "\x7b\"baseline\":\x7b".toList ++ ((Json.renderFields
      (j.baseline.entries.map (fun e => (e.1, bytesJson e.2)))).toList ++ '\x7d' :: rest) := by
  refine ⟨?_, ?_⟩
  rotate_left
  · rw [text, toJson]
    simp only [Json.render, Json.renderFields, String.toList_append, append_assoc]
    rfl

def readFirst (text : String) : Option String :=
  (JsonText.readQuoted (text.toList.drop 13)).map Prod.fst

theorem readFirst_text (j : DeltaJournal) :
    readFirst j.text = j.baseline.entries.head?.map Prod.fst := by
  obtain ⟨rest, hrest⟩ := j.text_baseline
  rw [readFirst, hrest, drop_left' (by decide)]
  cases j.baseline.entries with
  | nil => rfl
  | cons e es =>
    have hfields : ∃ rest, (Json.renderFields ((e :: es).map (fun e => (e.1, bytesJson e.2)))).toList
        = JsonText.quoted e.1 ++ rest := by
      cases es with
      | nil =>
        refine ⟨?_, ?_⟩
        rotate_left
        · simp only [map_cons, map_nil, Json.renderFields, Json.quote,
            String.toList_append, append_assoc, JsonText.quoted, String.toList_ofList]
          rfl
      | cons e' es =>
        refine ⟨?_, ?_⟩
        rotate_left
        · simp only [map_cons, Json.renderFields, Json.quote, String.toList_append,
            append_assoc, JsonText.quoted, String.toList_ofList]
          rfl
    obtain ⟨rest', hfields⟩ := hfields
    rw [hfields, append_assoc, JsonText.readQuoted_append]
    rfl

end DeltaJournal

/-! ### Fenced checkpoints -/

structure CheckpointStore where
  currentEpoch : Nat
  /-- Epoch and payload of the latest checkpoint. -/
  latest : Option (Nat × String)
  rejections : List (Nat × Nat)

namespace CheckpointStore

def new : CheckpointStore := ⟨0, none, []⟩

/-- The store, and whether the checkpoint was taken. -/
def write (s : CheckpointStore) (epoch : Nat) (payload : String) : CheckpointStore × Bool :=
  if epoch ≤ s.currentEpoch then
    ({ s with rejections := s.rejections ++ [(epoch, s.currentEpoch)] }, false)
  else ({ s with currentEpoch := epoch, latest := some (epoch, payload) }, true)

end CheckpointStore

end Checkpoint

end Modbit
