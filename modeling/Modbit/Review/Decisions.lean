import Modbit.Fleet.Compensation
import Modbit.Lib.Delta

/-!
# Deciding on a hunk

`resolve_review_hunk` of the surface.  A rejected hunk is first taken back in the worktree, and then
the decision goes through the command path, which may refuse it.  A worktree is here what separates
it from the base revision: for each file the two texts and their hunks.

`Sound` is what is to hold of a call: one that fails changes nothing, one that succeeds has recorded
the decision, and a rejection has taken back the hunk it names.  `sound_iff` says when it does.
-/

namespace Modbit

open Lib List

namespace Review

/-! ### The worktree -/

/-- A hunk, between the lines of the base and those of the worktree. -/
abbrev Hunk := Placed String

/-- The second number of a hunk's header: the first line that was added, or the line before. -/
def newStart (h : Hunk) : Nat := if h.added = [] then h.target else h.target + 1

structure ChangedFile where
  path : String
  /-- `parse_hunks` reads its path from the diff. -/
  listed : Bool
  /-- There is a difference that is not a hunk. -/
  otherwise : Bool
  delta : Delta String

namespace ChangedFile

def hunks (f : ChangedFile) : List Hunk := f.delta.placed

def differs (f : ChangedFile) : Bool := f.otherwise || !f.hunks.isEmpty

def takeBack (f : ChangedFile) (place : Nat) : ChangedFile := { f with delta := f.delta.undo place }

end ChangedFile

structure Tree where
  files : List ChangedFile
  distinct : (files.map ChangedFile.path).Nodup

def Tree.takeBack (tree : Tree) (path : String) (place : Nat) : Tree where
  files := tree.files.map (fun f => if f.path = path then f.takeBack place else f)
  distinct := by
    have hpaths : (tree.files.map (fun f => if f.path = path then f.takeBack place else f)).map
        ChangedFile.path = tree.files.map ChangedFile.path := by
      rw [List.map_map]
      refine List.map_congr_left (fun f _ => ?_)
      simp only [Function.comp]
      split_ifs <;> rfl
    rw [hpaths]
    exact tree.distinct

theorem Tree.files_takeBack (tree : Tree) (path : String) (place : Nat) :
    (tree.takeBack path place).files
      = tree.files.map (fun f => if f.path = path then f.takeBack place else f) := rfl

inductive ReviewError where
  | message (text : String)
  | git (operation message : String)
  | uuid
  | command (e : Fleet.SpawnError)

/-! ### Rejecting a hunk -/

structure Git where
  /-- Why `git diff -U0` fails, with this base on this path. -/
  diff : String → String → Option String
  /-- The path, as a pathspec, is about the file. -/
  covers : String → String → Bool
  /-- Why `git apply --reverse` fails on a hunk under the header of a file. -/
  apply : Tree → String → Hunk → Option String

namespace Git

variable (git : Git) (tree : Tree)

/-- The files `git diff -U0 base -- path` prints. -/
def diffFiles (path : String) : List ChangedFile :=
  tree.files.filter (fun f => f.differs && git.covers path f.path)

def applyReverse (f : ChangedFile) (h : Hunk) : Except ReviewError Tree :=
  match git.apply tree f.path h with
  | some message => .error (.git "apply --reverse" message)
  | none =>
    if h ∈ f.hunks then .ok (tree.takeBack f.path h.target)
    else .error (.git "apply --reverse" ("patch failed: " ++ f.path))

def blocks (path : String) : List Hunk := (git.diffFiles tree path).flatMap ChangedFile.hunks

/-- The file whose header is before the first block. -/
def headed (path : String) : Option ChangedFile :=
  (git.diffFiles tree path).find? (fun f => !f.hunks.isEmpty)

def rejectHunk (path : String) (start : Nat) (base : String) : Except ReviewError Tree :=
  match git.diff base path with
  | some message => .error (.git ("diff -U0 " ++ base ++ " -- " ++ path) message)
  | none =>
    if git.diffFiles tree path = [] then .ok tree
    else
      match (git.blocks tree path).find? (fun h => newStart h = start), git.headed tree path with
      | some h, some f => git.applyReverse tree f h
      | _, _ => .error (.git "apply --reverse"
          ("no hunk starts at line " ++ toString start ++ " in " ++ path))

end Git

/-! ### The call -/

structure WorktreeLayout where
  worktree : String
  baseRevision : String

inductive Checkout where
  | missing
  | broken (message : String)
  | opened (tree : Tree)

structure Services where
  db : Db
  taskWorktrees : Option (String → Option WorktreeLayout)
  worktrees : String → Checkout

structure ResolveReviewHunkCommand where
  taskId : String
  path : String
  newStart : Nat
  accepted : Bool

namespace Services

variable (s : Services)

def reviewRepo (taskId : String) : Except ReviewError (WorktreeLayout × Tree) :=
  match s.taskWorktrees with
  | none => .error (.message
      "task worktrees not configured on this core (host must attach the layout)")
  | some layout =>
    match layout taskId with
    | none => .error (.message "no repository configured for task worktrees")
    | some config =>
      match s.worktrees config.worktree with
      | .missing => .error (.message ("task " ++ taskId ++ " has no allocated worktree"))
      | .broken message => .error (.git "rev-parse --git-dir" message)
      | .opened tree => .ok (config, tree)

def withTree (worktree : String) (tree : Tree) : Services :=
  { s with worktrees := Function.update s.worktrees worktree (.opened tree) }

variable (git : Git) (resolve : ResolveReviewHunkCommand) (turn : Fleet.Turn)

def recordDecision (base : String) : Services × Except ReviewError Unit :=
  match (Id.parse resolve.taskId : Option TaskId) with
  | none => (s, .error .uuid)
  | some taskId =>
    match Fleet.executeCommand s.db
      (.resolveReviewHunk taskId resolve.path resolve.newStart resolve.accepted base) turn with
    | (db, .ok _) => ({ s with db := db }, .ok ())
    | (db, .error e) => ({ s with db := db }, .error (.command e))

def resolveReviewHunk : Services × Except ReviewError Unit :=
  match s.reviewRepo resolve.taskId with
  | .error e => (s, .error e)
  | .ok (config, tree) =>
    if resolve.accepted then s.recordDecision resolve turn config.baseRevision
    else
      match git.rejectHunk tree resolve.path resolve.newStart config.baseRevision with
      | .error e => (s, .error e)
      | .ok tree' =>
        (s.withTree config.worktree tree').recordDecision resolve turn config.baseRevision

end Services

/-! ### What is to hold of a call -/

/-- Only the log of commands has grown, by one that was refused. -/
def Untouched (db db' : Db) : Prop :=
  db' = db ∨ ∃ row : CommandLogRow, row.status = "REJECTED" ∧ db' = db.withLog row

/-- One event of the task has been appended. -/
def Recorded (db db' : Db) (taskId : TaskId) (event : DomainEvent) : Prop :=
  ∃ (row : EventRow) (log : CommandLogRow), row.aggregateId = taskId.toText ∧
    row.eventType = eventTypeOf event ∧ row.payloadInline = event.toJson ∧
      db' = { db with events := db.events ++ [row] }.withLog log

/-- In the file of that name the hunk that starts there is taken back, and nothing else. -/
def Reverted (tree tree' : Tree) (path : String) (start : Nat) : Prop :=
  ∃ before f f' after hs h hs', tree.files = before ++ f :: after ∧
    tree'.files = before ++ f' :: after ∧ f.path = path ∧ f'.path = path ∧
      f.hunks = hs ++ h :: hs' ∧ newStart h = start ∧ f.delta.Undone hs hs' h f'.delta

def decisionEvent (resolve : ResolveReviewHunkCommand) (base : String) : DomainEvent :=
  .reviewHunkResolved resolve.path resolve.newStart resolve.accepted base

def Carried (s s' : Services) (resolve : ResolveReviewHunkCommand) : Prop :=
  ∃ config tree taskId, s.reviewRepo resolve.taskId = .ok (config, tree) ∧
    Id.parse resolve.taskId = some taskId ∧
      Recorded s.db s'.db taskId (decisionEvent resolve config.baseRevision) ∧
        if resolve.accepted = true then s'.worktrees = s.worktrees
        else ∃ tree', s'.worktrees = Function.update s.worktrees config.worktree (.opened tree') ∧
          Reverted tree tree' resolve.path resolve.newStart

def Sound (s : Services) (resolve : ResolveReviewHunkCommand)
    (r : Services × Except ReviewError Unit) : Prop :=
  match r.2 with
  | .error _ => r.1.worktrees = s.worktrees ∧ Untouched s.db r.1.db
  | .ok () => Carried s r.1 resolve

/-! ### When it does -/

def reviewable : TaskState → Bool
  | .running | .waiting _ | .readyForReview | .completed => true
  | _ => false

/-- The task is one whose decisions are recorded. -/
def Reviewable (db : Db) (taskId : String) : Prop :=
  ∃ id : TaskId, Id.parse taskId = some id ∧ ∃ state, stateOf db id = some state ∧
    reviewable state = true

namespace Git

variable (git : Git) (tree : Tree) (path : String) (start : Nat) (base : String)

def Undiffered : Prop := git.diff base path = none ∧ git.diffFiles tree path = []

/-- The hunk is found under the header of the file, and git takes it back. -/
def Takes (f : ChangedFile) (h : Hunk) : Prop :=
  git.diff base path = none ∧ git.headed tree path = some f ∧
    (git.blocks tree path).find? (fun h => newStart h = start) = some h ∧
      git.apply tree f.path h = none ∧ h ∈ f.hunks

end Git

/-- A decision is recorded, or nothing was done before it is refused; and a hunk that is taken back
is one of the file that was named. -/
def Settled (git : Git) (s : Services) (resolve : ResolveReviewHunkCommand) (turn : Fleet.Turn) :
    Prop :=
  ∀ config tree, s.reviewRepo resolve.taskId = .ok (config, tree) →
    (resolve.accepted = true → ¬ (Reviewable s.db resolve.taskId ∧ turn.fault = .lookup)) ∧
    (resolve.accepted = false →
      (git.Undiffered tree resolve.path config.baseRevision →
        ¬ (Reviewable s.db resolve.taskId ∧ turn.fault ≠ .store)) ∧
      ∀ f h, git.Takes tree resolve.path resolve.newStart config.baseRevision f h →
        Reviewable s.db resolve.taskId ∧ turn.fault = .none ∧ f.path = resolve.path)

section Rejecting

variable {git : Git} {tree : Tree} {path base : String} {start : Nat} {f : ChangedFile} {h : Hunk}

theorem rejectHunk_cases (git : Git) (tree : Tree) (path : String) (start : Nat) (base : String) :
    (∃ e, git.rejectHunk tree path start base = .error e ∧ ¬ git.Undiffered tree path base ∧
      ∀ f h, ¬ git.Takes tree path start base f h) ∨
    (git.rejectHunk tree path start base = .ok tree ∧ git.Undiffered tree path base ∧
      ∀ f h, ¬ git.Takes tree path start base f h) ∨
    ∃ f h, git.rejectHunk tree path start base = .ok (tree.takeBack f.path h.target) ∧
      ¬ git.Undiffered tree path base ∧ git.Takes tree path start base f h ∧
        ∀ f' h', git.Takes tree path start base f' h' → f' = f ∧ h' = h := by
  rw [Git.rejectHunk]
  cases hdiff : git.diff base path with
  | some message =>
    refine .inl ⟨_, rfl, ?_, ?_⟩
    · rintro ⟨hnone, -⟩
      cases hdiff.symm.trans hnone
    · rintro f h ⟨hnone, -⟩
      cases hdiff.symm.trans hnone
  | none =>
    by_cases hfiles : git.diffFiles tree path = []
    · rw [if_pos hfiles]
      refine .inr (.inl ⟨rfl, ⟨hdiff, hfiles⟩, ?_⟩)
      rintro f h ⟨-, hheaded, -⟩
      rw [Git.headed, hfiles] at hheaded
      cases hheaded
    · have hdiffers : ¬ git.Undiffered tree path base := fun hnot => hfiles hnot.2
      rw [if_neg hfiles]
      cases hblock : (git.blocks tree path).find? (fun h => newStart h = start) with
      | none =>
        refine .inl ⟨_, rfl, hdiffers, ?_⟩
        rintro f h ⟨-, -, hfound, -⟩
        cases hblock.symm.trans hfound
      | some h =>
        cases hheaded : git.headed tree path with
        | none =>
          refine .inl ⟨_, rfl, hdiffers, ?_⟩
          rintro f h ⟨-, hfound, -⟩
          cases hheaded.symm.trans hfound
        | some f =>
          have hsame : ∀ f' h', git.Takes tree path start base f' h' → f' = f ∧ h' = h := by
            rintro f' h' ⟨-, hf, hh, -⟩
            exact ⟨Option.some.inj (hf.symm.trans hheaded), Option.some.inj (hh.symm.trans hblock)⟩
          dsimp only
          rw [Git.applyReverse]
          cases happly : git.apply tree f.path h with
          | some message =>
            refine .inl ⟨_, rfl, hdiffers, fun f' h' htakes => ?_⟩
            obtain ⟨rfl, rfl⟩ := hsame f' h' htakes
            cases happly.symm.trans htakes.2.2.2.1
          | none =>
            by_cases hmem : h ∈ f.hunks
            · rw [if_pos hmem]
              exact .inr (.inr ⟨f, h, rfl, hdiffers, ⟨hdiff, hheaded, hblock, happly, hmem⟩, hsame⟩)
            · rw [if_neg hmem]
              refine .inl ⟨_, rfl, hdiffers, fun f' h' htakes => ?_⟩
              obtain ⟨rfl, rfl⟩ := hsame f' h' htakes
              exact hmem htakes.2.2.2.2

theorem undone_ne {hs hs' : List Hunk} (hhunks : f.hunks = hs ++ h :: hs')
    {d : Delta String} (hundone : f.delta.Undone hs hs' h d) : d ≠ f.delta := by
  intro heq
  have hplaced := congrArg List.length (hundone.placed.symm.trans (congrArg Delta.placed heq))
  have hlength : (hs ++ h :: hs').length = f.delta.placed.length := congrArg List.length hhunks.symm
  simp only [length_append, length_cons, length_map] at hplaced hlength
  omega

theorem not_reverted_self (tree : Tree) (path : String) (start : Nat) :
    ¬ Reverted tree tree path start := by
  rintro ⟨before, f, f', after, hs, h, hs', hfiles, hfiles', -, -, hhunks, -, hundone⟩
  have hsame : f' = f := by
    have hrest := append_cancel_left (hfiles'.symm.trans hfiles)
    exact (List.cons.inj hrest).1
  exact undone_ne hhunks hundone (congrArg ChangedFile.delta hsame)

theorem eq_of_path {g : ChangedFile} (hf : f ∈ tree.files) (hg : g ∈ tree.files)
    (hpath : g.path = f.path) : g = f := inj_on_of_nodup_map tree.distinct hg hf hpath

theorem Git.Takes.mem (htakes : git.Takes tree path start base f h) : f ∈ tree.files :=
  mem_of_mem_filter (mem_of_find?_eq_some htakes.2.1)

theorem Git.Takes.start_eq (htakes : git.Takes tree path start base f h) : newStart h = start := by
  have hfound := find?_some htakes.2.2.1
  exact of_decide_eq_true hfound

/-- **What is taken back is the hunk of the file under whose header it was found.** -/
theorem Git.Takes.reverted (htakes : git.Takes tree path start base f h) :
    Reverted tree (tree.takeBack f.path h.target) f.path start := by
  obtain ⟨before, after, hfiles⟩ := append_of_mem htakes.mem
  obtain ⟨hs, hs', hhunks⟩ := append_of_mem htakes.2.2.2.2
  have hothers : ∀ g ∈ before ++ after, g.path ≠ f.path := by
    intro g hg hpath
    have hdistinct := tree.distinct
    rw [hfiles, map_append, map_cons, nodup_middle, nodup_cons, ← map_append] at hdistinct
    exact hdistinct.1 (hpath ▸ mem_map_of_mem hg)
  have hkept : ∀ gs : List ChangedFile, (∀ g ∈ gs, g.path ≠ f.path) →
      gs.map (fun g => if g.path = f.path then g.takeBack h.target else g) = gs := by
    intro gs hgs
    exact (map_congr_left (fun g hg => if_neg (hgs g hg))).trans (map_id gs)
  refine ⟨before, f, f.takeBack h.target, after, hs, h, hs', hfiles, ?_, rfl, rfl, hhunks,
    htakes.start_eq, Delta.undo_spec hhunks⟩
  rw [Tree.files_takeBack, hfiles, map_append, map_cons, if_pos rfl,
    hkept before (fun g hg => hothers g (mem_append_left _ hg)),
    hkept after (fun g hg => hothers g (mem_append_right _ hg))]

theorem Git.Takes.path_eq {name : String} (htakes : git.Takes tree path start base f h)
    (hreverted : Reverted tree (tree.takeBack f.path h.target) name start) : f.path = name := by
  by_contra hne
  obtain ⟨before, g, g', after, -, -, -, hfiles, hfiles', hg, -⟩ := hreverted
  -- the file would still be there as it was
  have hstays : f ∈ (tree.takeBack f.path h.target).files := by
    have hmem := htakes.mem
    rw [hfiles, mem_append, mem_cons] at hmem
    rw [hfiles', mem_append, mem_cons]
    rcases hmem with hmem | rfl | hmem
    · exact .inl hmem
    · exact absurd hg hne
    · exact .inr (.inr hmem)
  obtain ⟨k, hk, hkf⟩ := mem_map.mp hstays
  obtain ⟨hs, hs', hhunks⟩ := append_of_mem htakes.2.2.2.2
  split_ifs at hkf with hpath
  · obtain rfl := eq_of_path htakes.mem hk hpath
    exact undone_ne hhunks (Delta.undo_spec hhunks) (congrArg ChangedFile.delta hkf)
  · exact hpath (congrArg ChangedFile.path hkf)

end Rejecting

/-! ### The decision in the store -/

section Recording

variable {db : Db} {turn : Fleet.Turn} {taskId : TaskId} {resolve : ResolveReviewHunkCommand}
  {base : String}

def payloadOf (taskId : TaskId) (resolve : ResolveReviewHunkCommand) (base : String) :
    CommandPayload :=
  .resolveReviewHunk taskId resolve.path resolve.newStart resolve.accepted base

theorem applyTaskEvent_decision (state : TaskState) (resolve : ResolveReviewHunkCommand)
    (base : String) : applyTaskEvent state (decisionEvent resolve base)
      = if reviewable state = true then .ok state else .error ⟨state, "review_hunk_resolved"⟩ := by
  cases state <;> rfl

theorem recorded_commit {e : EventEnvelope} {log : CommandLogRow}
    (hagg : e.aggregateId = taskId.toText) (htype : e.aggregateType = .task)
    (hevent : e.eventType = eventTypeOf e.payload) (hpay : e.payload = decisionEvent resolve base) :
    Recorded db ((db.commit [e]).withLog log) taskId (decisionEvent resolve base) := by
  have hkeeps : applyOrKeep project db.projections e = db.projections := by
    refine applyOrKeep_ok ?_
    rw [project, htype, projectTask, hpay]
    rfl
  refine ⟨e.commandRow, log, hagg, ?_, ?_, ?_⟩
  · exact hevent.trans (congrArg eventTypeOf hpay)
  · exact congrArg DomainEvent.toJson hpay
  · rw [Db.commit, lenient_cons, hkeeps, lenient_nil]
    rfl

/-- **A decision on a reviewable task is recorded**, unless the store fails. -/
theorem executeCommand_recorded (resolve : ResolveReviewHunkCommand) (base : String)
    (hg : GaplessLog db.events)
    (hstored : ∃ es : List EventEnvelope, db.events = es.map EventEnvelope.storedRow)
    (hunused : Fleet.Unused db turn) (hfault : turn.fault ≠ .store) {state : TaskState}
    (hstate : stateOf db taskId = some state) (hreview : reviewable state = true) :
    ∃ db', Fleet.executeCommand db (payloadOf taskId resolve base) turn
        = (db', if turn.fault = .none then .ok (some taskId.toText) else .error .fault) ∧
      Recorded db db' taskId (decisionEvent resolve base) := by
  obtain ⟨es, hes⟩ := hstored
  have hu : Unseen db (turn.command (payloadOf taskId resolve base)) := hunused.2
  have happly := applyTaskEvent_decision state resolve base
  rw [if_pos hreview] at happly
  have hstage : ∃ plan, stage db turn.oracle (payloadOf taskId resolve base) = .ok plan :=
    stage_lifecycle hes hg rfl rfl rfl rfl hstate happly
  obtain ⟨plan, hs⟩ := hstage
  obtain ⟨e, rfl, hid, hagg, htype, hevent, hpay, hclean⟩ : ∃ e, plan = [e] ∧
      e.eventId = turn.oracle.first.eventId.toText ∧ e.aggregateId = taskId.toText ∧
        e.aggregateType = .task ∧ e.eventType = eventTypeOf e.payload ∧
          e.payload = decisionEvent resolve base ∧ Clean project db.projections [e] := by
    have hst := (stage_ok hs).1
    generalize hp : payloadOf taskId resolve base = payload at hst
    cases hst with
    | lifecycle ht hl _ _ _ _ =>
      subst hp
      exact ⟨_, rfl, rfl, (Option.some.inj ht).symm, rfl, rfl, (Option.some.inj hl).symm,
        clean_singleton (projectable_lifecycle hl _ _ _ _ _)⟩
    | session _ | task _ | input _ _ _ _ | question _ | goal _ _ | fork _ | rewind _ _ _ => cases hp
  have hexec := execute_commit hg hunused.1 hu hs hclean
  refine ⟨(db.commit [e]).withLog (logRow (turn.command (payloadOf taskId resolve base))
    turn.oracle (.ok [e.eventId])), ?_, recorded_commit hagg htype hevent hpay⟩
  rw [Fleet.executeCommand_applied hunused hid hfault hexec, hagg]
  rfl

/-- **Another decision is refused**, and leaves the store as it was. -/
theorem executeCommand_untouched (resolve : ResolveReviewHunkCommand) (base : String)
    (hunused : Fleet.Unused db turn) (hg : GaplessLog db.events)
    (hnot : ¬ ((∃ state, stateOf db taskId = some state ∧ reviewable state = true) ∧
      turn.fault ≠ .store)) :
    ∃ db' e, Fleet.executeCommand db (payloadOf taskId resolve base) turn = (db', .error e) ∧
      Untouched db db' := by
  by_cases hfault : turn.fault = .store
  · exact ⟨db, .fault, Fleet.executeCommand_store hfault, .inl rfl⟩
  · have hu : Unseen db (turn.command (payloadOf taskId resolve base)) := hunused.2
    cases hs : stage db turn.oracle (payloadOf taskId resolve base) with
    | ok plan =>
      have hlifecycle : lifecycleEvent (payloadOf taskId resolve base)
          = some (decisionEvent resolve base) := rfl
      have htarget : (payloadOf taskId resolve base).targetAggregate = some taskId.toText := rfl
      obtain ⟨state, state', hstate, happly, -⟩ := stateOf_commit hg hlifecycle htarget hs
        (logRow (turn.command (payloadOf taskId resolve base)) turn.oracle (.ok []))
      refine absurd ⟨⟨state, hstate, ?_⟩, hfault⟩ hnot
      by_contra hreview
      have hrefused := applyTaskEvent_decision state resolve base
      rw [if_neg hreview] at hrefused
      cases hrefused.symm.trans happly
    | error reason =>
      have hr : planAndAppend db turn.oracle (payloadOf taskId resolve base) = (db, .error reason) := by
        rw [planAndAppend, hs]
      have hexec : execute db ⟨turn.commandId, ⟨.user, "desktop-main"⟩, payloadOf taskId resolve base⟩
          turn.oracle = (db.withLog (logRow (turn.command (payloadOf taskId resolve base)) turn.oracle
            (.error reason)), .ok (.rejected reason)) := execute_unseen hu hr rfl
      refine ⟨_, .rejected reason, ?_, .inr ⟨logRow (turn.command (payloadOf taskId resolve base))
        turn.oracle (.error reason), rfl, rfl⟩⟩
      rw [Fleet.executeCommand, if_neg hfault, hexec]

theorem Recorded.touches {db' : Db} {event : DomainEvent} (h : Recorded db db' taskId event) :
    ¬ Untouched db db' := by
  obtain ⟨row, log, -, -, -, rfl⟩ := h
  have hgrown : (db.events ++ [row]).length ≠ db.events.length := by
    rw [length_append, length_singleton]
    omega
  rintro (heq | ⟨_, -, heq⟩)
  · exact hgrown (congrArg (fun d => d.events.length) heq)
  · exact hgrown (congrArg (fun d => d.events.length) heq)

end Recording

/-! ### Whole calls -/

section Calls

variable {s s₁ : Services} {resolve : ResolveReviewHunkCommand} {turn : Fleet.Turn} {git : Git}
  {config : WorktreeLayout} {tree : Tree}

/-- The decision is recorded, whether or not its event is found again. -/
def Recording (s : Services) (resolve : ResolveReviewHunkCommand) (turn : Fleet.Turn) : Prop :=
  Reviewable s.db resolve.taskId ∧ turn.fault ≠ .store

/-- What a call that has succeeded is to have done in the worktree. -/
def Effect (s s₁ : Services) (config : WorktreeLayout) (tree : Tree)
    (resolve : ResolveReviewHunkCommand) : Prop :=
  if resolve.accepted = true then s₁.worktrees = s.worktrees
  else ∃ tree', s₁.worktrees = Function.update s.worktrees config.worktree (.opened tree') ∧
    Reverted tree tree' resolve.path resolve.newStart

variable {ops : List Op}

theorem recordDecision_recorded (hdb : s.db = Db.after ops)
    (hunused : Fleet.Unused s.db turn) (hrecording : Recording s resolve turn) (base : String) :
    ∃ taskId db', Id.parse resolve.taskId = some taskId ∧
      Recorded s.db db' taskId (decisionEvent resolve base) ∧
        s.recordDecision resolve turn base
          = ({ s with db := db' }, if turn.fault = .none then .ok () else .error (.command .fault)) := by
  obtain ⟨⟨taskId, hparse, state, hstate, hreview⟩, hfault⟩ := hrecording
  have hg : GaplessLog s.db.events := hdb ▸ after_gapless ops
  have hstored : ∃ es : List EventEnvelope, s.db.events = es.map EventEnvelope.storedRow :=
    ⟨_, by rw [hdb, after_events]⟩
  obtain ⟨db', hexec, hrecorded⟩ :=
    executeCommand_recorded resolve base hg hstored hunused hfault hstate hreview
  refine ⟨taskId, db', hparse, hrecorded, ?_⟩
  rw [Services.recordDecision, hparse]
  dsimp only
  rw [← payloadOf, hexec]
  by_cases hnone : turn.fault = .none
  · simp only [if_pos hnone]
  · simp only [if_neg hnone]

theorem recordDecision_untouched (hdb : s.db = Db.after ops)
    (hunused : Fleet.Unused s.db turn) (hnot : ¬ Recording s resolve turn) (base : String) :
    ∃ db' e, s.recordDecision resolve turn base = ({ s with db := db' }, .error e) ∧
      Untouched s.db db' := by
  have hg : GaplessLog s.db.events := hdb ▸ after_gapless ops
  cases hparse : (Id.parse resolve.taskId : Option TaskId) with
  | none =>
    refine ⟨s.db, .uuid, ?_, .inl rfl⟩
    rw [Services.recordDecision, hparse]
  | some taskId =>
    have hrefused : ¬ ((∃ state, stateOf s.db taskId = some state ∧ reviewable state = true) ∧
        turn.fault ≠ .store) := fun h => hnot ⟨⟨taskId, hparse, h.1⟩, h.2⟩
    obtain ⟨db', e, hexec, huntouched⟩ :=
      executeCommand_untouched resolve base hunused hg hrefused
    refine ⟨db', .command e, ?_, huntouched⟩
    rw [Services.recordDecision, hparse]
    dsimp only
    rw [← payloadOf, hexec]

/-- **Recording after an effect.**  Where the decision is not recorded, there must not have been an
effect; where it is, the effect must be the one that was asked for. -/
theorem sound_record_iff (s₁ : Services) (hdb : s.db = Db.after ops)
    (hunused : Fleet.Unused s.db turn) (hrepo : s.reviewRepo resolve.taskId = .ok (config, tree))
    (hsame : s₁.db = s.db) :
    Sound s resolve (s₁.recordDecision resolve turn config.baseRevision) ↔
      (Recording s resolve turn → turn.fault = .none ∧ Effect s s₁ config tree resolve) ∧
        (¬ Recording s resolve turn → s₁.worktrees = s.worktrees) := by
  by_cases hrecording : Recording s resolve turn
  · obtain ⟨taskId, db', hparse, hrecorded, hcall⟩ := recordDecision_recorded
      (hsame.trans hdb) (hsame ▸ hunused) (s := s₁) (by rwa [Recording, hsame]) config.baseRevision
    rw [hsame] at hrecorded
    rw [hcall]
    by_cases hfault : turn.fault = .none
    · rw [if_pos hfault]
      constructor
      · rintro ⟨config', tree', taskId', hrepo', -, -, heffect⟩
        obtain ⟨rfl, rfl⟩ := Prod.mk.inj (Except.ok.inj (hrepo.symm.trans hrepo'))
        exact ⟨fun _ => ⟨hfault, heffect⟩, fun hnot => absurd hrecording hnot⟩
      · intro h
        exact ⟨config, tree, taskId, hrepo, hparse, hrecorded, (h.1 hrecording).2⟩
    · rw [if_neg hfault]
      exact iff_of_false (fun h => hrecorded.touches h.2) (fun h => hfault (h.1 hrecording).1)
  · obtain ⟨db', e, hcall, huntouched⟩ := recordDecision_untouched
      (hsame.trans hdb) (hsame ▸ hunused) (s := s₁) (by rwa [Recording, hsame]) config.baseRevision
    rw [hsame] at huntouched
    rw [hcall]
    constructor
    · exact fun h => ⟨fun hyes => absurd hyes hrecording, fun _ => h.1⟩
    · exact fun h => ⟨h.2 hrecording, huntouched⟩

theorem opened_of_reviewRepo (hrepo : s.reviewRepo resolve.taskId = .ok (config, tree)) :
    s.worktrees config.worktree = .opened tree := by
  rw [Services.reviewRepo] at hrepo
  cases hlayouts : s.taskWorktrees with
  | none =>
    rw [hlayouts] at hrepo
    cases hrepo
  | some layout =>
    rw [hlayouts] at hrepo
    cases hlayout : layout resolve.taskId with
    | none =>
      simp only [hlayout] at hrepo
      cases hrepo
    | some config' =>
      simp only [hlayout] at hrepo
      cases hcheckout : s.worktrees config'.worktree with
      | missing =>
        simp only [hcheckout] at hrepo
        cases hrepo
      | broken message =>
        simp only [hcheckout] at hrepo
        cases hrepo
      | opened tree' =>
        simp only [hcheckout] at hrepo
        obtain ⟨rfl, rfl⟩ := Prod.mk.inj (Except.ok.inj hrepo)
        exact hcheckout

theorem opened_of_update {tree' tree'' : Tree}
    (h : Function.update s.worktrees config.worktree (.opened tree')
      = Function.update s.worktrees config.worktree (.opened tree'')) : tree' = tree'' := by
  have hat := congrFun h config.worktree
  rw [Function.update_self, Function.update_self] at hat
  exact Checkout.opened.inj hat

theorem withTree_self (hrepo : s.reviewRepo resolve.taskId = .ok (config, tree)) :
    (s.withTree config.worktree tree).worktrees = s.worktrees := by
  rw [Services.withTree, ← opened_of_reviewRepo hrepo]
  exact Function.update_eq_self _ _

theorem fault_cases (fault : Fleet.CallFault) :
    fault = .none ↔ fault ≠ .store ∧ fault ≠ .lookup := by
  cases fault <;> decide

/-- **When a call is sound.** -/
theorem sound_iff (git : Git) (s : Services) (resolve : ResolveReviewHunkCommand)
    (turn : Fleet.Turn) (ops : List Op) (hdb : s.db = Db.after ops)
    (hunused : Fleet.Unused s.db turn) :
    Sound s resolve (s.resolveReviewHunk git resolve turn) ↔ Settled git s resolve turn := by
  rw [Services.resolveReviewHunk]
  cases hrepo : s.reviewRepo resolve.taskId with
  | error e =>
    refine iff_of_true ⟨rfl, .inl rfl⟩ (fun config tree hok => ?_)
    cases hrepo.symm.trans hok
  | ok found =>
    obtain ⟨config, tree⟩ := found
    dsimp only
    have hsettled : Settled git s resolve turn ↔
        (resolve.accepted = true → ¬ (Reviewable s.db resolve.taskId ∧ turn.fault = .lookup)) ∧
        (resolve.accepted = false →
          (git.Undiffered tree resolve.path config.baseRevision → ¬ Recording s resolve turn) ∧
          ∀ f h, git.Takes tree resolve.path resolve.newStart config.baseRevision f h →
            Reviewable s.db resolve.taskId ∧ turn.fault = .none ∧ f.path = resolve.path) := by
      constructor
      · exact fun h => h config tree hrepo
      · intro h config' tree' hrepo'
        obtain ⟨rfl, rfl⟩ := Prod.mk.inj (Except.ok.inj (hrepo.symm.trans hrepo'))
        exact h
    rw [hsettled]
    by_cases haccepted : resolve.accepted = true
    · rw [if_pos haccepted, sound_record_iff s hdb hunused hrepo rfl, Effect, if_pos haccepted]
      constructor
      · intro h
        refine ⟨fun _ hlost => ?_, fun hnot => (by rw [hnot] at haccepted; cases haccepted)⟩
        have hnone := (h.1 ⟨hlost.1, by rw [hlost.2]; decide⟩).1
        rw [hlost.2] at hnone
        cases hnone
      · intro h
        refine ⟨fun hrecording => ⟨(fault_cases _).mpr ⟨hrecording.2, fun hlost => ?_⟩, rfl⟩,
          fun _ => rfl⟩
        exact h.1 haccepted ⟨hrecording.1, hlost⟩
    · have hrejected : resolve.accepted = false := Bool.eq_false_iff.mpr haccepted
      have hno : (resolve.accepted = true → ¬ (Reviewable s.db resolve.taskId ∧ turn.fault = .lookup))
          := fun h => absurd h haccepted
      rw [if_neg haccepted]
      rcases rejectHunk_cases git tree resolve.path resolve.newStart config.baseRevision with
        ⟨e, hreject, hdiffers, hnone⟩ | ⟨hreject, hempty, hnone⟩ |
          ⟨f, h, hreject, hdiffers, htakes, honly⟩
      · rw [hreject]
        refine iff_of_true ⟨rfl, .inl rfl⟩ ⟨hno, fun _ => ⟨fun h => absurd h hdiffers, ?_⟩⟩
        exact fun f h htakes => absurd htakes (hnone f h)
      · -- nothing was taken back, so a decision must not be recorded
        rw [hreject]
        rw [sound_record_iff (s.withTree config.worktree tree) hdb hunused hrepo rfl, Effect,
          if_neg haccepted]
        have hkept := withTree_self hrepo
        constructor
        · intro h
          refine ⟨hno, fun _ => ⟨fun _ hrecording => ?_, fun f h htakes => absurd htakes (hnone f h)⟩⟩
          obtain ⟨-, tree', hworktrees, hreverted⟩ := h.1 hrecording
          obtain rfl := opened_of_update hworktrees
          exact not_reverted_self _ _ _ hreverted
        · intro h
          have hnot := (h.2 hrejected).1 hempty
          exact ⟨fun hrecording => absurd hrecording hnot, fun _ => hkept⟩
      · rw [hreject]
        rw [sound_record_iff (s.withTree config.worktree (tree.takeBack f.path h.target)) hdb
          hunused hrepo rfl, Effect, if_neg haccepted]
        have hreverted := htakes.reverted
        have hchanged : (s.withTree config.worktree (tree.takeBack f.path h.target)).worktrees
            ≠ s.worktrees := by
          intro hsame
          have hat : tree.takeBack f.path h.target = tree :=
            opened_of_update (hsame.trans (withTree_self hrepo).symm)
          rw [hat] at hreverted
          exact not_reverted_self _ _ _ hreverted
        constructor
        · intro hsound
          have hrecording : Recording s resolve turn := by
            by_contra hnot
            exact hchanged (hsound.2 hnot)
          obtain ⟨hfault, tree', hworktrees, hnamed⟩ := hsound.1 hrecording
          obtain rfl := opened_of_update hworktrees
          refine ⟨hno, fun _ => ⟨fun hempty => absurd hempty hdiffers, fun f' h' htakes' => ?_⟩⟩
          obtain ⟨rfl, rfl⟩ := honly f' h' htakes'
          exact ⟨hrecording.1, hfault, htakes.path_eq hnamed⟩
        · intro hcond
          obtain ⟨hreviewable, hfault, hpath⟩ := (hcond.2 hrejected).2 f h htakes
          have hrecording : Recording s resolve turn := ⟨hreviewable, by rw [hfault]; decide⟩
          exact ⟨fun _ => ⟨hfault, _, rfl, hpath ▸ hreverted⟩, fun hnot => absurd hrecording hnot⟩

end Calls

/-! ### A hunk of a failed task -/

def failedOps : List Op :=
  (sampleCalls [.createSession "s", .createTask ⟨.ofNat 0⟩ "title" "prompt" none none none,
    .queueTask ⟨.ofNat 3⟩, .startTask ⟨.ofNat 3⟩, .failTask ⟨.ofNat 3⟩ "code" "message"]).map Call.op

def addedLine : Tree where
  files := [⟨"a.txt", true, false, ⟨[⟨[], [], ["new"]⟩], ["old"], by decide, by decide⟩⟩]
  distinct := List.nodup_singleton _

def plainGit : Git := ⟨fun _ _ => none, fun spec path => spec == path, fun _ _ _ => none⟩

def failedServices : Services :=
  ⟨Db.after failedOps, some (fun _ => some ⟨"worktree", "main"⟩), fun _ => .opened addedLine⟩

def rejectAdded : ResolveReviewHunkCommand :=
  ⟨Id.toText (⟨.ofNat 3⟩ : TaskId), "a.txt", 1, false⟩

theorem failedOps_facts : stateOf (Db.after failedOps) ⟨.ofNat 3⟩ = some .failed ∧
    Fleet.Unused (Db.after failedOps) (Fleet.sampleTurn 10) := by
  have heval : Db.after failedOps = run evalStep Db.empty failedOps := by
    rw [Db.after, step_eq]
  rw [heval]
  decide +kernel

theorem sound_iff_failed : Fleet.Unused failedServices.db (Fleet.sampleTurn 10) ∧
    (Sound failedServices rejectAdded
        (failedServices.resolveReviewHunk plainGit rejectAdded (Fleet.sampleTurn 10)) ↔
      Settled plainGit failedServices rejectAdded (Fleet.sampleTurn 10)) :=
  ⟨failedOps_facts.2, sound_iff plainGit failedServices rejectAdded (Fleet.sampleTurn 10) failedOps
    rfl failedOps_facts.2⟩

/-- The command is refused, and the line is gone. -/
theorem rejected_stays : ¬ Sound failedServices rejectAdded
    (failedServices.resolveReviewHunk plainGit rejectAdded (Fleet.sampleTurn 10)) := by
  have hrepo : failedServices.reviewRepo rejectAdded.taskId = .ok (⟨"worktree", "main"⟩, addedLine) :=
    rfl
  have hreject : plainGit.rejectHunk addedLine "a.txt" 1 "main" = .ok (addedLine.takeBack "a.txt" 0) := by
    have hfiles : plainGit.diffFiles addedLine "a.txt" = addedLine.files := rfl
    rw [Git.rejectHunk, Git.blocks, Git.headed, hfiles]
    rfl
  have hnot : ¬ Recording (failedServices.withTree "worktree" (addedLine.takeBack "a.txt" 0))
      rejectAdded (Fleet.sampleTurn 10) := by
    rintro ⟨⟨id, hparse, state, hstate, hreview⟩, -⟩
    obtain rfl : id = ⟨.ofNat 3⟩ := Option.some.inj (hparse.symm.trans (Id.parse_toText _))
    obtain rfl : state = .failed := Option.some.inj (hstate.symm.trans failedOps_facts.1)
    cases hreview
  have hafter : (failedServices.withTree "worktree" (addedLine.takeBack "a.txt" 0)).db
      = Db.after failedOps := rfl
  obtain ⟨db', e, hcall, -⟩ := recordDecision_untouched hafter failedOps_facts.2 hnot "main"
  have hrun : failedServices.resolveReviewHunk plainGit rejectAdded (Fleet.sampleTurn 10)
      = ({ failedServices.withTree "worktree" (addedLine.takeBack "a.txt" 0) with db := db' },
          .error e) := by
    rw [Services.resolveReviewHunk, hrepo]
    dsimp only
    rw [if_neg (by decide), show rejectAdded.path = "a.txt" from rfl,
      show rejectAdded.newStart = 1 from rfl, hreject]
    exact hcall
  rw [hrun]
  rintro ⟨hsame, -⟩
  have hat : Function.update failedServices.worktrees "worktree"
      (.opened (addedLine.takeBack "a.txt" 0)) "worktree" = .opened addedLine :=
    congrFun hsame "worktree"
  rw [Function.update_self] at hat
  have htree := Checkout.opened.inj hat
  have hhunks := congrArg (fun tree => tree.files.map (fun f => f.hunks.length)) htree
  revert hhunks
  decide

end Review

end Modbit
