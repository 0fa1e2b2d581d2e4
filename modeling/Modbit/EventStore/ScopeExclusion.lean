import Modbit.EventStore.System

/-!
# Exclusion of write scopes

Two tasks that have not ended must not hold scopes of which one contains the other.  `acquire`
compares with the scopes of the tasks in one of four states; `project` also writes five waiting
states, and a task may declare a scope before it has a row.  The scopes of such tasks are `Hidden`
from an acquisition.  The others it compares by their texts, so it misses a path that leads to the
same place under another spelling.

`scopesExclusive_of_path`: in every run in which no acquisition passes over such a scope, no two
live tasks hold overlapping ones.  It rests on `project_knownStates`, the list of all states a row
can be in, and on the invariant `Separated`.
-/

namespace Modbit

open Lib List

namespace WriteScopes

/-! ### The states of a task -/

def waitingStates : List String :=
  [waitingState .userInput, waitingState .approval, waitingState .capacity,
    waitingState .external, waitingState .provider]

/-- All that `project` writes. -/
def projectedStates : List String := activeStates ++ TERMINAL_STATES ++ waitingStates

/-- Every row is in a state `project` writes. -/
def KnownStates (p : Projections) : Prop := ∀ t ∈ p.tasks, t.state ∈ projectedStates

variable {p p' : Projections} {e : EventEnvelope}

theorem waitingState_mem (reason : WaitingReason) : waitingState reason ∈ projectedStates := by
  cases reason <;> simp [projectedStates, waitingStates]

theorem KnownStates.updateTask (h : KnownStates p) (taskId : String) {set : TaskRow → TaskRow}
    (hset : ∀ r : TaskRow, r.state ∈ projectedStates → (set r).state ∈ projectedStates) :
    KnownStates (p.updateTask taskId set) := by
  intro t ht
  obtain ⟨r, hr, rfl⟩ := mem_map.mp ht
  split
  · exact hset r (h r hr)
  · exact h r hr

theorem KnownStates.taskState (h : KnownStates p) {state : String}
    (hstate : state ∈ projectedStates) : KnownStates (Modbit.taskState p e state) :=
  h.updateTask _ (fun _ _ => hstate)

theorem KnownStates.taskStateWithCompletion (h : KnownStates p) {state : String}
    (hstate : state ∈ projectedStates) : KnownStates (Modbit.taskStateWithCompletion p e state) :=
  h.updateTask _ (fun _ _ => hstate)

/-- **A projected event leaves every task in a known state.** -/
theorem project_knownStates (hk : KnownStates p) (h : project p e = .ok p') : KnownStates p' := by
  unfold project projectSession projectTask at h
  cases ht : e.aggregateType <;> cases hp : e.payload <;>
    simp only [ht, hp, insertSession_ok_iff, insertTask_ok_iff, insertTaskInput_ok_iff,
      Except.ok.injEq] at h
  case session.sessionCreated => obtain ⟨_, rfl⟩ := h; exact hk
  case task.taskInputQueued => obtain ⟨_, rfl⟩ := h; exact hk
  case task.taskCreated =>
    obtain ⟨_, rfl⟩ := h
    intro t hmem
    rcases mem_append.mp hmem with hmem | hmem
    · exact hk t hmem
    · have hcreated : "created" ∈ projectedStates := by decide
      rw [mem_singleton.mp hmem]
      exact hcreated
  case task.taskStarted =>
    have hrunning : "running" ∈ projectedStates := by decide
    have hrun : KnownStates (p.updateTask e.aggregateId (fun r =>
        { r with state := "running", startedAt := some (r.startedAt.getD e.occurredAt),
                 generation := e.sequence })) :=
      hk.updateTask _ (fun _ _ => hrunning)
    split at h
    · cases h; exact hrun
    · cases h; exact hrun.taskState hrunning
  case task.taskQueued => cases h; exact hk.taskState (by decide)
  case task.taskWaiting reason =>
    cases h
    exact hk.updateTask _ (fun _ _ => waitingState_mem reason)
  case task.taskReadyForReview => cases h; exact hk.taskState (by decide)
  case task.taskCompleted => cases h; exact hk.taskStateWithCompletion (by decide)
  case task.taskFailed =>
    cases h
    exact (hk.taskStateWithCompletion (by decide)).updateTask _ (fun _ hr => hr)
  case task.taskCancelled => cases h; exact hk.taskStateWithCompletion (by decide)
  case task.taskSteered => cases h; exact hk.updateTask _ (fun _ hr => hr)
  all_goals
    cases h
    exact hk

/-- Every task of a reachable store is in a state `project` writes. -/
theorem after_knownStates (ops : List Op) : KnownStates (Db.after ops).projections := by
  have hempty : KnownStates .empty := fun t ht => by cases ht
  rw [after_projections]
  exact lenient_invariant (fun _ _ _ hk hp => project_knownStates hk hp) _ hempty

/-! ### What an acquisition sees -/

variable {db : Db} {taskId repoKey scopeSpec : String} {h : WriteScopeRow}

/-- A scope of a task that waits, or that has no row. -/
def Hidden (db : Db) (h : WriteScopeRow) : Prop :=
  h.taskId ∈ tasksIn db waitingStates ∨ h.taskId ∉ db.projections.taskIds

instance : Decidable (Hidden db h) := inferInstanceAs (Decidable (_ ∨ _))

theorem mem_tasksIn {states : List String} {id : String} :
    id ∈ tasksIn db states ↔ ∃ t ∈ db.projections.tasks, t.state ∈ states ∧ t.taskId = id := by
  simp [tasksIn, and_assoc]

/-- **A scope that is not hidden is compared or swept.** -/
theorem seen_of_not_hidden (hk : KnownStates db.projections) (hh : ¬ Hidden db h) :
    h.taskId ∈ tasksIn db activeStates ∨ h.taskId ∈ tasksIn db TERMINAL_STATES := by
  rw [Hidden, not_or, not_not] at hh
  obtain ⟨hwait, hrow⟩ := hh
  obtain ⟨t, ht, hid⟩ := mem_map.mp hrow
  have hstate := hk t ht
  rw [projectedStates, mem_append, mem_append] at hstate
  rcases hstate with (hactive | hterminal) | hwaiting
  · exact Or.inl (mem_tasksIn.mpr ⟨t, ht, hactive, hid⟩)
  · exact Or.inr (mem_tasksIn.mpr ⟨t, ht, hterminal, hid⟩)
  · exact absurd (mem_tasksIn.mpr ⟨t, ht, hwaiting, hid⟩) hwait

instance {a b : String} : Decidable (Overlap a b) := inferInstanceAs (Decidable
  (((location a).absolute = (location b).absolute ∧ _) ∨
    (location b).absolute = (location a).absolute ∧ _))

/-- When no declared path conflicts with a scope in sight, none leads into or above a
scope of another task on the repository that is hidden or in sight. -/
def SeesOverlaps (db : Db) : Op → Prop
  | .acquireScope taskId repoKey scopeSpec =>
    (∀ path ∈ parseScope scopeSpec, ∀ h ∈ heldScopes (releaseTerminal db) repoKey,
      ¬ conflicts path h = true) →
    ∀ path ∈ parseScope scopeSpec, ∀ h ∈ db.taskWriteScopes, h.repoKey = repoKey →
      h.taskId ≠ taskId → Hidden db h ∨ h ∈ heldScopes (releaseTerminal db) repoKey →
      ¬ Overlap h.path path
  | _ => True

/-- **Among plain paths only hidden scopes are missed.** -/
theorem seesOverlaps_of_plain (hpaths : ∀ path ∈ parseScope scopeSpec, Plain path)
    (hscopes : ∀ h ∈ db.taskWriteScopes, Plain h.path)
    (hhidden : ∀ path ∈ parseScope scopeSpec, ∀ h ∈ db.taskWriteScopes, h.repoKey = repoKey →
      h.taskId ≠ taskId → Hidden db h → ¬ Overlap h.path path) :
    SeesOverlaps db (.acquireScope taskId repoKey scopeSpec) := by
  rintro hfree path hpath h hrow hrepo hne (hh | hheld)
  · exact hhidden path hpath h hrow hrepo hne hh
  · intro hover
    exact hfree path hpath h hheld
      ((conflicts_iff_of_plain (hpaths path hpath) (hscopes h hrow)).mpr hover)

instance : ∀ op, Decidable (SeesOverlaps db op)
  | .acquireScope _ _ _ => inferInstanceAs (Decidable (_ → _))
  | .append _ | .appendWithLease _ _ _ | .execute _ _ | .acquireLease _ _ _ _
  | .releaseScope _ => .isTrue trivial

/-! ### Separation -/

/-- Scopes of two tasks on one repository do not overlap. -/
def Separated (scopes : List WriteScopeRow) : Prop :=
  ∀ a ∈ scopes, ∀ b ∈ scopes, a.taskId ≠ b.taskId → a.repoKey = b.repoKey →
    ¬ Overlap a.path b.path

theorem Separated.filter {scopes : List WriteScopeRow} (h : Separated scopes)
    (keep : WriteScopeRow → Bool) : Separated (scopes.filter keep) :=
  fun a ha b hb => h a (mem_of_mem_filter ha) b (mem_of_mem_filter hb)

theorem Separated.declare {scopes : List WriteScopeRow} {paths : List String}
    (hs : Separated scopes)
    (hfree : ∀ path ∈ paths, ∀ h ∈ scopes, h.repoKey = repoKey → h.taskId ≠ taskId →
      ¬ Overlap h.path path) :
    Separated (scopes ++ paths.map (fun path => ⟨taskId, repoKey, path⟩)) := by
  intro a ha b hb hne hrepo
  rcases mem_append.mp ha with ha | ha <;> rcases mem_append.mp hb with hb | hb
  · exact hs a ha b hb hne hrepo
  · obtain ⟨path, hpath, rfl⟩ := mem_map.mp hb
    exact hfree path hpath a ha hrepo hne
  · obtain ⟨path, hpath, rfl⟩ := mem_map.mp ha
    intro hover
    exact hfree path hpath b hb hrepo.symm hne.symm hover.symm
  · obtain ⟨_, _, rfl⟩ := mem_map.mp ha
    obtain ⟨_, _, rfl⟩ := mem_map.mp hb
    exact absurd rfl hne

/-- **An acquisition that misses no overlap keeps the scopes apart.** -/
theorem acquire_separated (hk : KnownStates db.projections) (hs : Separated db.taskWriteScopes)
    (hok : SeesOverlaps db (.acquireScope taskId repoKey scopeSpec)) :
    Separated (acquire db taskId repoKey scopeSpec).1.taskWriteScopes := by
  have hres := acquire_result db taskId repoKey scopeSpec
  generalize acquire db taskId repoKey scopeSpec = r at hres
  cases hres with
  | nothing _ => exact hs
  | denied => exact hs.filter _
  | recorded hfree hdb =>
    rw [hdb]
    refine Separated.declare ((hs.filter _).filter _) (fun path hpath h hmem hrepo hne => ?_)
    have hswept := mem_of_mem_filter hmem
    obtain ⟨hrow, hlive⟩ := mem_filter.mp hswept
    refine hok hfree path hpath h hrow hrepo hne (or_iff_not_imp_left.mpr (fun hh => ?_))
    rcases seen_of_not_hidden hk hh with hactive | hterminal
    · exact mem_filter.mpr ⟨hswept, decide_eq_true ⟨hrepo, hactive⟩⟩
    · exact absurd hterminal (of_decide_eq_true hlive)

/-! ### Every run -/

def Live (db : Db) (taskId : String) : Prop :=
  ∃ t ∈ db.projections.tasks, t.taskId = taskId ∧ t.state ∉ TERMINAL_STATES

/-- No two live tasks hold scopes on one repository of which one contains the other. -/
def ScopesExclusive (db : Db) : Prop :=
  ∀ a ∈ db.taskWriteScopes, ∀ b ∈ db.taskWriteScopes, a.taskId ≠ b.taskId →
    a.repoKey = b.repoKey → Live db a.taskId → Live db b.taskId →
    ¬ (SameOrAncestor a.path b.path ∨ SameOrAncestor b.path a.path)

theorem step_separated (hg : GaplessLog db.events) (hk : KnownStates db.projections)
    (hs : Separated db.taskWriteScopes) {op : Op} (hok : SeesOverlaps db op) :
    Separated (step db op).1.taskWriteScopes := by
  cases op with
  | append es =>
    have hsame := (append_allOrNothing hg es).sameRegistries.2
    exact (congrArg Separated hsame).mpr hs
  | appendWithLease s l es =>
    have hsame := (appendWithLease_allOrNothing hg s l es).sameRegistries.2
    exact (congrArg Separated hsame).mpr hs
  | execute c o =>
    have hsame := (execute_sameRegistries db c o).2
    exact (congrArg Separated hsame).mpr hs
  | acquireLease s l w n => exact hs
  | acquireScope t r p => exact acquire_separated hk hs hok
  | releaseScope t => exact hs.filter _

theorem separated_of_path (h : Path step SeesOverlaps Db.empty db) :
    Separated db.taskWriteScopes := by
  have hempty : Separated Db.empty.taskWriteScopes := fun a ha => by cases ha
  refine h.invariant_run (I := fun db => Separated db.taskWriteScopes) hempty ?_
  intro ops op hs hok
  exact step_separated (after_gapless ops) (after_knownStates ops) hs hok

/-- **In every run in which no acquisition misses an overlap, live tasks hold separate
scopes.** -/
theorem scopesExclusive_of_path (h : Path step SeesOverlaps Db.empty db) : ScopesExclusive db := by
  intro a ha b hb hne hrepo _ _
  exact separated_of_path h a ha b hb hne hrepo

def firstTask : String := Id.toText (⟨.ofNat 3⟩ : TaskId)

def secondTask : String := Id.toText (⟨.ofNat 6⟩ : TaskId)

/-- Two tasks of one session, of which the first comes to wait. -/
def waitingCalls : List Call :=
  sampleCalls [.createSession "s", .createTask ⟨.ofNat 0⟩ "one" "prompt" none none none,
    .createTask ⟨.ofNat 0⟩ "two" "prompt" none none none, .queueTask ⟨.ofNat 3⟩,
    .startTask ⟨.ofNat 3⟩, .taskWaiting ⟨.ofNat 3⟩ .userInput]

/-- The first task declares a scope before it starts, the second one while it waits. -/
def waitingHolder (first second : String) : List Op :=
  (waitingCalls.take 3).map Call.op ++ .acquireScope firstTask "repo" first ::
    (waitingCalls.drop 3).map Call.op ++ [.acquireScope secondTask "repo" second]

theorem scopesExclusive_waitingHolder :
    ScopesExclusive (Db.after (waitingHolder "src/api.rs" "src/lib.rs, docs/")) := by
  have hok : Admits step SeesOverlaps Db.empty
      (waitingHolder "src/api.rs" "src/lib.rs, docs/") := by
    rw [step_eq]
    decide +kernel
  exact scopesExclusive_of_path (path_of_admits _ hok)

instance : Decidable (Live db taskId) := inferInstanceAs (Decidable (∃ t ∈ _, _))

/-- Both tasks hold the file of the waiting one. -/
theorem not_scopesExclusive_waitingHolder :
    ¬ ScopesExclusive (Db.after (waitingHolder "src/api.rs" "src/api.rs")) := by
  have hboth : let db := run evalStep Db.empty (waitingHolder "src/api.rs" "src/api.rs")
      ∃ a ∈ db.taskWriteScopes, ∃ b ∈ db.taskWriteScopes,
        a.taskId ≠ b.taskId ∧ a.repoKey = b.repoKey ∧ Live db a.taskId ∧ Live db b.taskId ∧
          Overlap a.path b.path := by
    decide +kernel
  rw [Db.after, step_eq]
  obtain ⟨a, ha, b, hb, hne, hrepo, hla, hlb, hover⟩ := hboth
  intro hex
  exact hex a ha b hb hne hrepo hla hlb hover

/-- Two spellings of one file. -/
example : Overlap "src//api.rs" "./lib/../src/api.rs" ∧
    ¬ conflicts "./lib/../src/api.rs" ⟨firstTask, "repo", "src//api.rs"⟩ = true := by
  decide +kernel

end WriteScopes

end Modbit
