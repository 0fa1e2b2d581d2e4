import Mathlib.Data.List.Induction
import Modbit.Agent.TaskReads

/-!
# What the rows of the tasks show

The state of a task stands twice in the store: its events fold to one, and its row in `tasks`
has the text that the last of them wrote.  Commands are decided by the first, and what counts
or joins tasks reads the second.

`Shows` says that the two agree, for one task, and `shows_execute` that every command keeps it.
`execute_rows` says what a command does to the rows: it may add one, and it never takes a row
out of a terminal state.
-/

namespace Modbit

open Lib WriteScopes List

/-! ### Texts of states -/

/-- The text `project` writes for a state. -/
def TaskState.text : TaskState → String
  | .created => "created"
  | .queued => "queued"
  | .running => "running"
  | .waiting reason => waitingState reason
  | .readyForReview => "ready_for_review"
  | .completed => "completed"
  | .failed => "failed"
  | .cancelled => "cancelled"

def TaskState.terminal : TaskState → Bool
  | .completed => true
  | .failed => true
  | .cancelled => true
  | _ => false

variable {state : TaskState}

theorem text_terminal_iff : state.text ∈ TERMINAL_STATES ↔ state.terminal = true := by
  cases state with
  | waiting reason => cases reason <;> decide
  | _ => decide

/-- The text an event writes into the row of its task. -/
def rowText : DomainEvent → Option String
  | .taskQueued => some "queued"
  | .taskStarted => some "running"
  | .taskWaiting reason => some (waitingState reason)
  | .taskReadyForReview => some "ready_for_review"
  | .taskCompleted _ => some "completed"
  | .taskFailed _ _ => some "failed"
  | .taskCancelled _ => some "cancelled"
  | _ => none

theorem applyTaskEvent_text {state state' : TaskState} {event : DomainEvent}
    (h : applyTaskEvent state event = .ok state') :
    state'.text = (rowText event).getD state.text := by
  cases event <;> cases state <;> cases h <;> rfl

theorem terminal_refuses {state state' : TaskState} {event : DomainEvent}
    (hterminal : state.terminal = true) (h : applyTaskEvent state event = .ok state') :
    rowText event = none := by
  cases state <;> cases hterminal
  all_goals cases event <;> first | rfl | cases h

/-! ### What an event does to the rows -/

/-- The row of a task before and after an event. -/
structure Moves (e : EventEnvelope) (t t' : TaskRow) : Prop where
  taskId : t'.taskId = t.taskId
  parent : t'.parentTaskId = t.parentTaskId
  state : t'.state = t.state ∨
    e.aggregateType = .task ∧ t.taskId = e.aggregateId ∧ rowText e.payload = some t'.state
  moved : e.aggregateType = .task → t.taskId = e.aggregateId →
    t'.state = (rowText e.payload).getD t.state

def createdRow (e : EventEnvelope) : List TaskRow :=
  match e.aggregateType, e.payload with
  | .task, .taskCreated _ title prompt _ _ parentTaskId =>
    [{ taskId := e.aggregateId, sessionId := e.sessionId.toText,
       goalText := title ++ "\n" ++ prompt, state := "created", generation := e.sequence,
       createdAt := e.occurredAt, startedAt := none, completedAt := none, failureCode := none,
       parentTaskId := parentTaskId }]
  | _, _ => []

variable {e : EventEnvelope} {p p' : Projections} {t t' : TaskRow}

theorem moves_self (h : e.aggregateType = .task → rowText e.payload = none) : Moves e t t := by
  refine ⟨rfl, rfl, .inl rfl, fun ht _ => ?_⟩
  rw [h ht]
  rfl

variable {set : TaskRow → TaskRow}

theorem moves_update (he : e.aggregateType = .task) {text : String}
    (htext : rowText e.payload = some text)
    (hset : ∀ t, (set t).taskId = t.taskId ∧ (set t).parentTaskId = t.parentTaskId
      ∧ (set t).state = text) (t : TaskRow) :
    Moves e t (if t.taskId = e.aggregateId then set t else t) := by
  obtain ⟨hid, hparent, hstate⟩ := hset t
  split_ifs with h
  · refine ⟨hid, hparent, .inr ⟨he, h, hstate ▸ htext⟩, fun _ _ => ?_⟩
    rw [htext, hstate]
    rfl
  · exact ⟨rfl, rfl, .inl rfl, fun _ hid => absurd hid h⟩

theorem project_other (he : e.aggregateType ≠ .task) (h : project p e = .ok p') :
    p'.tasks = p.tasks := by
  unfold project at h
  cases ht : e.aggregateType with
  | task => exact absurd ht he
  | run | turn | runStep =>
    rw [ht] at h
    cases h
    rfl
  | session =>
    simp only [ht, projectSession] at h
    split at h
    · obtain ⟨_, rfl⟩ := insertSession_ok_iff.mp h
      rfl
    · cases h
      rfl

/-- What becomes of the rows under an event. -/
def RowsAfter (e : EventEnvelope) (rows rows' : List TaskRow) : Prop :=
  ∃ f : TaskRow → TaskRow, (∀ t, Moves e t (f t)) ∧
    (rows' = rows.map f ∨ rows' = rows.map f ++ createdRow e)

theorem rowsAfter_self {rows : List TaskRow} (h : e.aggregateType = .task → rowText e.payload = none) :
    RowsAfter e rows rows :=
  ⟨id, fun _ => moves_self h, .inl (map_id _).symm⟩

theorem rowsAfter_update (he : e.aggregateType = .task) {text : String}
    (htext : rowText e.payload = some text)
    (hset : ∀ t, (set t).taskId = t.taskId ∧ (set t).parentTaskId = t.parentTaskId
      ∧ (set t).state = text) :
    RowsAfter e p.tasks (p.updateTask e.aggregateId set).tasks :=
  ⟨_, moves_update he htext hset, .inl rfl⟩

theorem updateTask_updateTask {taskId : String} {set set' : TaskRow → TaskRow}
    (h : ∀ t, (set t).taskId = t.taskId) :
    (p.updateTask taskId set).updateTask taskId set' = p.updateTask taskId (set' ∘ set) := by
  simp only [Projections.updateTask, map_map]
  congr 1
  refine map_congr_left (fun t _ => ?_)
  by_cases ht : t.taskId = taskId
  · simp only [Function.comp, if_pos ht, h t]
  · simp only [Function.comp, if_neg ht]

/-- **What an event does to the rows.** -/
theorem project_rows (h : project p e = .ok p') : RowsAfter e p.tasks p'.tasks := by
  by_cases he : e.aggregateType = .task
  · simp only [project, he, projectTask] at h
    cases hp : e.payload <;> simp only [hp, insertTask_ok_iff, insertTaskInput_ok_iff] at h
    case taskCreated =>
      obtain ⟨_, rfl⟩ := h
      refine ⟨id, fun t => moves_self (fun _ => by rw [hp]; rfl), .inr ?_⟩
      rw [map_id, createdRow, he, hp]
    case taskInputQueued =>
      obtain ⟨_, rfl⟩ := h
      exact rowsAfter_self (fun _ => by rw [hp]; rfl)
    case taskStarted =>
      split at h
      · cases h
        exact rowsAfter_update he (by rw [hp]; rfl) (fun t => ⟨rfl, rfl, rfl⟩)
      · cases h
        rw [taskState, updateTask_updateTask]
        · exact rowsAfter_update he (by rw [hp]; rfl) (fun t => ⟨rfl, rfl, rfl⟩)
        · exact fun _ => rfl
    case taskFailed =>
      cases h
      rw [taskStateWithCompletion, updateTask_updateTask]
      · exact rowsAfter_update he (by rw [hp]; rfl) (fun t => ⟨rfl, rfl, rfl⟩)
      · exact fun _ => rfl
    case taskSteered =>
      cases h
      have hnone : rowText e.payload = none := by rw [hp]; rfl
      refine ⟨_, fun t => ?_, .inl rfl⟩
      split_ifs
      · refine ⟨rfl, rfl, .inl rfl, fun _ _ => ?_⟩
        rw [hnone]
        rfl
      · exact moves_self (fun _ => hnone)
    case taskQueued | taskReadyForReview | taskWaiting | taskCompleted | taskCancelled =>
      cases h
      exact rowsAfter_update he (by rw [hp]; rfl) (fun t => ⟨rfl, rfl, rfl⟩)
    all_goals
      cases h
      exact rowsAfter_self (fun _ => by rw [hp]; rfl)
  · rw [project_other he h]
    exact rowsAfter_self (fun ht => absurd ht he)

theorem applyOrKeep_rows (p : Projections) (e : EventEnvelope) :
    RowsAfter e p.tasks (applyOrKeep project p e).tasks := by
  cases h : project p e with
  | ok p' =>
    rw [applyOrKeep_ok h]
    exact project_rows h
  | error x =>
    rw [applyOrKeep_error h]
    refine rowsAfter_self (fun ht => ?_)
    -- What is refused is an insert, and writes no state.
    have hnot : ¬ Projectable p e := fun hp => by
      obtain ⟨p', hp'⟩ := project_ok_iff.mpr hp
      rw [hp'] at h
      cases h
    unfold Projectable at hnot
    rw [ht] at hnot
    cases hp : e.payload <;> rw [hp] at hnot <;> first | rfl | exact absurd trivial hnot

/-! ### Rows and events -/

/-- What the rows of a task show is what its events fold to; a task with a row has events. -/
structure Shows (id : String) (history : List DomainEvent) (rows : List TaskRow) : Prop where
  opened : (∃ t ∈ rows, t.taskId = id) → history ≠ []
  agrees : ∀ state, foldTask history = some (.ok state) →
    ∀ t ∈ rows, t.taskId = id → t.state = state.text

/-- An event the machine knows is one of a task. -/
def Typed (e : EventEnvelope) : Prop :=
  e.aggregateType = .task ∨ ∀ folded state, foldStep folded e.payload ≠ .ok state

variable {id : String} {history : List DomainEvent} {rows : List TaskRow}

theorem createdRow_eq (h : t ∈ createdRow e) : t.taskId = e.aggregateId ∧ t.state = "created" ∧
    ∃ s title prompt repo base, e.payload = .taskCreated s title prompt repo base t.parentTaskId := by
  unfold createdRow at h
  split at h
  · next hp =>
    rw [mem_singleton.mp h]
    exact ⟨rfl, rfl, _, _, _, _, _, hp⟩
  · cases h

theorem Shows.other {rows' : List TaskRow} (h : Shows id history rows) (hrows : RowsAfter e rows rows')
    (hid : e.aggregateId ≠ id) : Shows id history rows' := by
  obtain ⟨f, hf, hrows⟩ := hrows
  have hold : ∀ t' ∈ rows', t'.taskId = id → ∃ t ∈ rows, t.taskId = id ∧ t'.state = t.state := by
    intro t' ht' htask
    have hmem : t' ∈ rows.map f ∨ t' ∈ createdRow e := by
      rcases hrows with rfl | rfl
      · exact .inl ht'
      · exact mem_append.mp ht'
    rcases hmem with hmem | hmem
    · obtain ⟨t, ht, rfl⟩ := mem_map.mp hmem
      have htask' : t.taskId = id := (hf t).taskId ▸ htask
      refine ⟨t, ht, htask', (hf t).state.resolve_right ?_⟩
      rintro ⟨-, hself, -⟩
      exact hid (hself.symm.trans htask')
    · exact absurd ((createdRow_eq hmem).1.symm.trans htask) hid
  refine ⟨fun ⟨t', ht', htask⟩ => ?_, fun state hstate t' ht' htask => ?_⟩
  · obtain ⟨t, ht, htask', -⟩ := hold t' ht' htask
    exact h.opened ⟨t, ht, htask'⟩
  · obtain ⟨t, ht, htask', hsame⟩ := hold t' ht' htask
    exact hsame.trans (h.agrees state hstate t ht htask')

theorem foldTask_eq_none (h : foldTask history = none) : history = [] := by
  cases history using List.reverseRecOn with
  | nil => rfl
  | append_singleton history e =>
    rw [foldTask_append_singleton] at h
    cases h

theorem Shows.self {rows' : List TaskRow} (h : Shows id history rows) (hrows : RowsAfter e rows rows')
    (htyped : Typed e) (hid : e.aggregateId = id) : Shows id (history ++ [e.payload]) rows' := by
  refine ⟨fun _ => append_ne_nil_of_right_ne_nil _ (cons_ne_nil _ _),
    fun state hstate t' ht' htask => ?_⟩
  rw [foldTask_append_singleton] at hstate
  have hstep := Option.some.inj hstate
  have hkind : e.aggregateType = .task := htyped.resolve_right (fun hno => hno _ _ hstep)
  obtain ⟨f, hf, hrows⟩ := hrows
  have hmem : t' ∈ rows.map f ∨ t' ∈ createdRow e := by
    rcases hrows with rfl | rfl
    · exact .inl ht'
    · exact mem_append.mp ht'
  rcases hmem with hmem | hmem
  · obtain ⟨t, ht, rfl⟩ := mem_map.mp hmem
    have htask' : t.taskId = id := (hf t).taskId ▸ htask
    rw [(hf t).moved hkind (htask'.trans hid.symm)]
    cases hfold : foldTask history with
    | none => exact absurd (foldTask_eq_none hfold) (h.opened ⟨t, ht, htask'⟩)
    | some folded =>
      rw [hfold] at hstep
      cases folded with
      | error x => cases hstep
      | ok s => rw [h.agrees s hfold t ht htask', applyTaskEvent_text hstep]
  · obtain ⟨-, hcreated, _, _, _, _, _, hp⟩ := createdRow_eq hmem
    rw [hcreated]
    rw [hp] at hstep
    cases hfold : foldTask history with
    | none =>
      rw [hfold] at hstep
      cases hstep
      rfl
    | some folded =>
      rw [hfold] at hstep
      cases folded with
      | error x => cases hstep
      | ok s =>
        cases s <;> cases hstep
        rfl

theorem Shows.lenient (ws : List EventEnvelope) : ∀ {history : List DomainEvent} {p : Projections},
    (∀ e ∈ ws, Typed e) → Shows id history p.tasks →
      Shows id (history ++ (envelopesOf id ws).map EventEnvelope.payload)
        (lenient project p ws).tasks := by
  induction ws with
  | nil =>
    intro history p _ h
    exact (append_nil history).symm ▸ h
  | cons e ws ih =>
    intro history p htyped h
    have hrows := applyOrKeep_rows p e
    have hrest : ∀ e' ∈ ws, Typed e' := fun e' he' => htyped e' (mem_cons_of_mem e he')
    rw [lenient_cons]
    by_cases hid : e.aggregateId = id
    · have hone := ih hrest (h.self hrows (htyped e mem_cons_self) hid)
      have hcons : envelopesOf id (e :: ws) = e :: envelopesOf id ws :=
        filter_cons_of_pos (decide_eq_true hid)
      rw [hcons, map_cons, ← singleton_append, ← append_assoc]
      exact hone
    · have hskip : envelopesOf id (e :: ws) = envelopesOf id ws :=
        filter_cons_of_neg (by simpa using hid)
      rw [hskip]
      exact ih hrest (h.other hrows hid)

/-! ### Commands -/

section Commands

variable {db db' : Db} {taskId : TaskId} {ws : List EventEnvelope} {command : Command} {o : Oracle}
  {payload : CommandPayload} {es : List EventEnvelope}

/-- The rows of a task show the state its events fold to. -/
def Db.Shows (db : Db) (taskId : TaskId) : Prop :=
  ∀ history, loadTaskEvents db taskId = .ok history →
    Modbit.Shows taskId.toText history db.projections.tasks

theorem shows_extended (hg : GaplessLog db.events) (hx : Extended db ws db')
    (hf : ∀ e ∈ ws, e.payload.Faithful) (htyped : ∀ e ∈ ws, Typed e) (h : db.Shows taskId) :
    db'.Shows taskId := by
  intro history' hload'
  obtain ⟨history, hload⟩ : ∃ history, loadTaskEvents db taskId = .ok history := by
    rw [loadTaskEvents, selectAggregate_extended hg hx, mapM_append] at hload'
    obtain ⟨history, hload, -⟩ := bind_eq_ok.mp hload'
    exact ⟨history, hload⟩
  rw [loadTaskEvents_extended hg hx hf hload] at hload'
  cases hload'
  rw [hx.projections]
  exact (h history hload).lenient ws htyped

theorem typed_session {stamp : Stamp} {sessionId : SessionId} {event : DomainEvent} {n : Nat}
    (h : ∀ folded state, foldStep folded event ≠ .ok state) :
    Typed (sessionEnvelope stamp sessionId event n) := .inr h

theorem Staged.typed (h : Staged db o payload es) : ∀ e ∈ es, Typed e := by
  intro e he
  cases h with
  | input _ _ _ _ =>
    rcases mem_inputEnvelopes he with rfl | rfl
    · exact .inl rfl
    · exact .inl rfl
  | lifecycle _ _ _ _ _ _ | task _ | goal _ _ =>
    rw [mem_singleton.mp he]
    exact .inl rfl
  | session _ | question _ | fork _ | rewind _ _ _ =>
    rw [mem_singleton.mp he]
    refine typed_session (fun folded state hstep => ?_)
    rcases folded with _ | ⟨_ | s⟩ <;> cases hstep

theorem mem_acceptedPlan {e : EventEnvelope} (h : e ∈ acceptedPlan db command o) :
    ∃ plan, stage db o command.payload = .ok plan ∧ e ∈ plan := by
  rw [acceptedPlan] at h
  split at h
  · next plan hs => exact ⟨plan, hs, mem_of_mem_take h⟩
  · cases h

/-- **Every command keeps rows and events in step.** -/
theorem shows_execute (hg : GaplessLog db.events) (h : db.Shows taskId) :
    (execute db command o).1.Shows taskId := by
  refine shows_extended hg (execute_extended hg) (fun e he => (acceptedPlan_core he).faithful) ?_ h
  intro e he
  obtain ⟨plan, hs, hmem⟩ := mem_acceptedPlan he
  exact (stage_ok hs).1.typed e hmem

/-! ### Rows under a command -/

def TaskRow.Known (t : TaskRow) : Prop := ∃ state : TaskState, t.state = state.text

structure RowKept (t t' : TaskRow) : Prop where
  taskId : t'.taskId = t.taskId
  parent : t'.parentTaskId = t.parentTaskId
  terminal : t.state ∈ TERMINAL_STATES → t'.state ∈ TERMINAL_STATES
  known : t.Known → t'.Known

theorem rowText_text {event : DomainEvent} {text : String} (h : rowText event = some text) :
    ∃ state : TaskState, text = state.text := by
  cases event <;> cases h
  case taskQueued => exact ⟨.queued, rfl⟩
  case taskStarted => exact ⟨.running, rfl⟩
  case taskWaiting reason => exact ⟨.waiting reason, rfl⟩
  case taskReadyForReview => exact ⟨.readyForReview, rfl⟩
  case taskCompleted => exact ⟨.completed, rfl⟩
  case taskFailed => exact ⟨.failed, rfl⟩
  case taskCancelled => exact ⟨.cancelled, rfl⟩

theorem Moves.kept {state state' : TaskState} (h : Moves e t t')
    (hstate : t.taskId = e.aggregateId → t.state = state.text)
    (ha : applyTaskEvent state e.payload = .ok state') : RowKept t t' := by
  refine ⟨h.taskId, h.parent, fun hterminal => ?_, fun hknown => ?_⟩
  · rcases h.state with hsame | ⟨-, hid, htext⟩
    · exact hsame ▸ hterminal
    · rw [hstate hid, text_terminal_iff] at hterminal
      rw [terminal_refuses hterminal ha] at htext
      cases htext
  · rcases h.state with hsame | ⟨-, -, htext⟩
    · obtain ⟨s, hs⟩ := hknown
      exact ⟨s, hsame.trans hs⟩
    · exact rowText_text htext

theorem Moves.kept_still (h : Moves e t t') (hnone : rowText e.payload = none) : RowKept t t' := by
  have hsame : t'.state = t.state := h.state.resolve_right (by rw [hnone]; rintro ⟨-, -, hc⟩; cases hc)
  exact ⟨h.taskId, h.parent, fun ht => hsame ▸ ht, fun ⟨s, hs⟩ => ⟨s, hsame.trans hs⟩⟩

theorem RowKept.trans {t'' : TaskRow} (h : RowKept t t') (h' : RowKept t' t'') : RowKept t t'' :=
  ⟨h'.taskId.trans h.taskId, h'.parent.trans h.parent, h'.terminal ∘ h.terminal, h'.known ∘ h.known⟩

theorem lenient_still (ws : List EventEnvelope) : ∀ {p : Projections},
    (∀ e ∈ ws, rowText e.payload = none ∧ createdRow e = []) →
      ∃ f : TaskRow → TaskRow, (∀ t, RowKept t (f t)) ∧ (lenient project p ws).tasks = p.tasks.map f := by
  induction ws with
  | nil => exact fun _ => ⟨id, fun t => ⟨rfl, rfl, id, id⟩, (map_id _).symm⟩
  | cons e ws ih =>
    intro p hstill
    obtain ⟨hnone, hrow⟩ := hstill e mem_cons_self
    obtain ⟨f, hf, hrows⟩ := applyOrKeep_rows p e
    obtain ⟨g, hg, hrows'⟩ := ih (p := applyOrKeep project p e)
      (fun e' he' => hstill e' (mem_cons_of_mem e he'))
    refine ⟨g ∘ f, fun t => ((hf t).kept_still hnone).trans (hg (f t)), ?_⟩
    rw [hrow, append_nil, or_self] at hrows
    rw [lenient_cons, hrows', hrows, map_map]

/-- The row of a task that a command has created. -/
structure CreatedBy (db : Db) (command : Command) (o : Oracle) (t : TaskRow) : Prop where
  payload : ∃ sessionId title prompt repo base,
    command.payload = .createTask sessionId title prompt repo base t.parentTaskId
  taskId : t.taskId = Id.toText (⟨o.aggregate⟩ : TaskId)
  state : t.state = TaskState.created.text
  new : t.taskId ∉ db.projections.taskIds
  applied : (execute db command o).2 = .ok (.applied [o.first.eventId.toText])

theorem commitLoop_single (db : Db) (hv : e.verifyIntegrity = true) :
    ((commitLoop db [e]).1.projections = db.projections ∧ ∃ x, (commitLoop db [e]).2 = .error x) ∨
      ∃ p, project db.projections e = .ok p ∧ (commitLoop db [e]).1.projections = p ∧
        (commitLoop db [e]).2 = .ok [e.eventId] := by
  rw [commitLoop, if_neg (by simp [hv])]
  cases hins : insertEventRow db e.commandRow with
  | error x => exact .inl ⟨rfl, _, rfl⟩
  | ok inserted =>
    obtain rfl := insertEventRow_ok hins
    simp only [projectInto_inserted]
    cases hp : project db.projections e with
    | error x => exact .inl ⟨rfl, _, rfl⟩
    | ok p => exact .inr ⟨p, rfl, rfl, rfl⟩

theorem execute_single (hu : Unseen db command) (hs : stage db o command.payload = .ok [e]) :
    ((execute db command o).1.projections = db.projections ∧
        ∃ x, (execute db command o).2 = .ok (.rejected x)) ∨
      ∃ p, project db.projections e = .ok p ∧ (execute db command o).1.projections = p ∧
        (execute db command o).2 = .ok (.applied [e.eventId]) := by
  have hloop := commitLoop_single db ((stage_ok hs).1.core e mem_cons_self).verified
  rw [execute_staged hu hs]
  generalize commitLoop db [e] = r at hloop
  obtain ⟨tx, res⟩ := r
  rcases hloop with ⟨hsame, x, rfl⟩ | ⟨p, hproj, hrows, rfl⟩
  · exact .inl ⟨hsame, x, rfl⟩
  · exact .inr ⟨p, hproj, hrows, rfl⟩

section NewTask

variable {s : SessionId} {title prompt : String} {repo base parent : Option String}

structure Opening (o : Oracle) (s : SessionId) (event : DomainEvent) (e : EventEnvelope) : Prop where
  eventId : e.eventId = o.first.eventId.toText
  aggregateId : e.aggregateId = Id.toText (⟨o.aggregate⟩ : TaskId)
  sessionId : e.sessionId = s
  kind : e.aggregateType = .task
  payload : e.payload = event

theorem opening_taskEnvelope (o : Oracle) (s : SessionId) (event : DomainEvent) :
    Opening o s event (taskEnvelope o.first ⟨o.aggregate⟩ s event 1) := ⟨rfl, rfl, rfl, rfl, rfl⟩

theorem stage_createTask_ok (hs : stage db o (.createTask s title prompt repo base parent) = .ok es) :
    0 < countEvents db s.toText ∧
      ∃ e, es = [e] ∧ Opening o s (.taskCreated s title prompt repo base parent) e := by
  cases (stage_ok hs).1 with
  | task hcount => exact ⟨hcount, _, rfl, opening_taskEnvelope o s _⟩
  | lifecycle _ hl _ _ _ _ => cases hl

theorem Opening.projectable (h : Opening o s (.taskCreated s title prompt repo base parent) e) :
    Projectable p e ↔ Id.toText (⟨o.aggregate⟩ : TaskId) ∉ p.taskIds ∧ s.toText ∈ p.sessionIds := by
  rw [Projectable, h.kind, h.payload, h.aggregateId, h.sessionId]

theorem Opening.project (h : Opening o s (.taskCreated s title prompt repo base parent) e)
    (hp : project p e = .ok p') : ∃ t : TaskRow, p'.tasks = p.tasks ++ [t] ∧
      t.taskId = Id.toText (⟨o.aggregate⟩ : TaskId) ∧ t.state = "created" ∧ t.parentTaskId = parent := by
  simp only [Modbit.project, h.kind, projectTask, h.payload] at hp
  obtain ⟨-, rfl⟩ := insertTask_ok_iff.mp hp
  exact ⟨_, rfl, h.aggregateId, rfl, rfl⟩

theorem createTask_rows (hp : command.payload = .createTask s title prompt repo base parent)
    (hu : Unseen db command) (hs : stage db o command.payload = .ok es) :
    (execute db command o).1.projections.tasks = db.projections.tasks ∨
      ∃ t, (execute db command o).1.projections.tasks = db.projections.tasks ++ [t] ∧
        CreatedBy db command o t := by
  obtain ⟨-, e, rfl, hopen⟩ := stage_createTask_ok (hp ▸ hs)
  rcases execute_single hu hs with ⟨hsame, -⟩ | ⟨p, hproj, hrows, happlied⟩
  · exact .inl (congrArg Projections.tasks hsame)
  · obtain ⟨t, htasks, hid, hstate, hparent⟩ := hopen.project hproj
    have hnew := (hopen.projectable.mp (project_ok_iff.mp ⟨p, hproj⟩)).1
    refine .inr ⟨t, hrows ▸ htasks, ⟨⟨s, title, prompt, repo, base, ?_⟩, hid, hstate, hid ▸ hnew, ?_⟩⟩
    · rw [hp, hparent]
    · rw [happlied, hopen.eventId]

end NewTask

theorem staged_rows (hshows : ∀ taskId, db.Shows taskId) (h : Staged db o payload es)
    (hother : ∀ s title prompt repo base parent,
      payload ≠ .createTask s title prompt repo base parent) (k : Nat) :
    ∃ f : TaskRow → TaskRow, (∀ t ∈ db.projections.tasks, RowKept t (f t)) ∧
      (lenient project db.projections (es.take k)).tasks = db.projections.tasks.map f := by
  have hstill : (∀ e ∈ es, rowText e.payload = none ∧ createdRow e = []) →
      ∃ f : TaskRow → TaskRow, (∀ t ∈ db.projections.tasks, RowKept t (f t)) ∧
        (lenient project db.projections (es.take k)).tasks = db.projections.tasks.map f := by
    intro hall
    obtain ⟨f, hf, hrows⟩ := lenient_still (p := db.projections) (es.take k)
      (fun e he => hall e (mem_of_mem_take he))
    exact ⟨f, fun t _ => hf t, hrows⟩
  cases h with
  | task _ => exact absurd rfl (hother _ _ _ _ _ _)
  | input _ _ _ _ =>
    refine hstill (fun e he => ?_)
    rcases mem_inputEnvelopes he with rfl | rfl
    · exact ⟨rfl, rfl⟩
    · exact ⟨rfl, rfl⟩
  | session _ | question _ | goal _ _ | fork _ | rewind _ _ _ =>
    refine hstill (fun e he => ?_)
    rw [mem_singleton.mp he]
    exact ⟨rfl, rfl⟩
  | @lifecycle _ taskId sessionId event history state state' ht hl hh hf ha hs =>
    cases k with
    | zero => exact ⟨id, fun t _ => ⟨rfl, rfl, id, id⟩, (map_id _).symm⟩
    | succ k =>
      -- The rows of the task show the state the machine has accepted the event in.
      obtain ⟨f, hmoves, hrows⟩ := applyOrKeep_rows db.projections
        (taskEnvelope o.first taskId sessionId event (history.length + 1))
      have hnew : createdRow (taskEnvelope o.first taskId sessionId event (history.length + 1)) = [] := by
        cases payload <;> cases hl <;> rfl
      rw [hnew, append_nil, or_self] at hrows
      rw [take_of_length_le (by simp)]
      refine ⟨f, fun t ht => (hmoves t).kept (fun hid => ?_) ha, hrows⟩
      exact (hshows taskId history hh).agrees state hf t ht hid

/-- **What a command does to the rows.**  It takes none out of a terminal state, and adds one at
most, of the task it creates. -/
theorem execute_rows (hshows : ∀ taskId, db.Shows taskId)
    (command : Command) (o : Oracle) :
    ∃ (f : TaskRow → TaskRow) (new : List TaskRow),
      (execute db command o).1.projections.tasks = db.projections.tasks.map f ++ new ∧
        (∀ t ∈ db.projections.tasks, RowKept t (f t)) ∧
          (new = [] ∨ ∃ t, new = [t] ∧ CreatedBy db command o t) := by
  have hid : db.projections.tasks = db.projections.tasks.map id ++ [] := by
    rw [map_id, append_nil]
  have hkept : ∀ t ∈ db.projections.tasks, RowKept t (id t) := fun t _ => ⟨rfl, rfl, id, id⟩
  have hres := execute_result db command o
  by_cases hcreate : ∃ s title prompt repo base parent,
      command.payload = .createTask s title prompt repo base parent
  · obtain ⟨s, title, prompt, repo, base, parent, hp⟩ := hcreate
    by_cases hu : Unseen db command
    · cases hs : stage db o command.payload with
      | error reason =>
        have hr : planAndAppend db o command.payload = (db, .error reason) := by
          rw [planAndAppend, hs]
        rw [execute_unseen hu hr rfl]
        exact ⟨id, [], hid, hkept, .inl rfl⟩
      | ok es =>
        rcases createTask_rows hp hu hs with hsame | ⟨t, hrows, ht⟩
        · exact ⟨id, [], hsame.trans hid, hkept, .inl rfl⟩
        · exact ⟨id, [t], by rw [hrows, map_id], hkept, .inr ⟨t, rfl, ht⟩⟩
    · obtain ⟨row, hrow⟩ : ∃ row, db.commandLog.find? (fun r => r.commandId = command.commandId)
          = some row := Option.ne_none_iff_exists'.mp (fun hnone => hu (find?_eq_none_iff.mp hnone))
      have hseen : execute db command o = (db, .ok (recordedOutcome row)) := by
        rw [execute, hrow]
      rw [hseen]
      exact ⟨id, [], hid, hkept, .inl rfl⟩
  · push Not at hcreate
    have hplain : ∀ es k, stage db o command.payload = .ok es →
        ∃ (f : TaskRow → TaskRow) (new : List TaskRow),
          (lenient project db.projections (es.take k)).tasks = db.projections.tasks.map f ++ new ∧
            (∀ t ∈ db.projections.tasks, RowKept t (f t)) ∧
              (new = [] ∨ ∃ t, new = [t] ∧ CreatedBy db command o t) := by
      intro es k hs
      obtain ⟨f, hf, hrows⟩ := staged_rows hshows (stage_ok hs).1 hcreate k
      exact ⟨f, [], by rw [hrows, append_nil], hf, .inl rfl⟩
    generalize hr : execute db command o = r at hres
    cases hres with
    | seen _ => exact ⟨id, [], hid, hkept, .inl rfl⟩
    | refused _ _ => exact ⟨id, [], hid, hkept, .inl rfl⟩
    | @applied es _ hs _ =>
      have h := hplain es es.length hs
      rw [take_length] at h
      exact h
    | @stopped es k x _ hs _ _ => exact hplain es k hs

/-- What the commands of a run do to a store. -/
def obey (db : Db) (i : Command × Oracle) : Db × Except StoreError Outcome := execute db i.1 i.2

/-- **Over every run rows and events are in step**, and no command takes a row away, gives it to another
task or takes it out of a terminal state. -/
theorem task_rows_law (inputs more : List (Command × Oracle)) :
    (∀ taskId, (run obey .empty inputs).Shows taskId) ∧
      ∃ (f : TaskRow → TaskRow) (new : List TaskRow),
        (run obey .empty (inputs ++ more)).projections.tasks
            = (run obey .empty inputs).projections.tasks.map f ++ new ∧
          ∀ t ∈ (run obey .empty inputs).projections.tasks, RowKept t (f t) := by
  have hrun : ∀ is, GaplessLog (run obey .empty is).events ∧
      ∀ taskId, (run obey .empty is).Shows taskId := by
    intro is
    induction is using List.reverseRecOn with
    | nil =>
      refine ⟨gapless_nil, fun taskId history _ => ⟨fun hrow => ?_, fun state _ t ht => by cases ht⟩⟩
      obtain ⟨t, ht, -⟩ := hrow
      cases ht
    | append_singleton is i ih =>
      rw [run_append]
      exact ⟨(execute_extended ih.1).gapless, fun taskId => shows_execute ih.1 (ih.2 taskId)⟩
  refine ⟨(hrun inputs).2, ?_⟩
  induction more using List.reverseRecOn with
  | nil =>
    refine ⟨id, [], ?_, fun t _ => ⟨rfl, rfl, id, id⟩⟩
    rw [append_nil, map_id, append_nil]
  | append_singleton more i ih =>
    obtain ⟨f, new, hrows, hkept⟩ := ih
    obtain ⟨g, new', hrows', hkept', -⟩ := execute_rows (hrun (inputs ++ more)).2 i.1 i.2
    rw [hrows] at hkept' hrows'
    refine ⟨fun t => g (f t), new.map g ++ new', ?_, fun t ht => ?_⟩
    · rw [← append_assoc, run_append]
      refine Eq.trans hrows' ?_
      rw [map_append, map_map, append_assoc]
      rfl
    · have hfirst := hkept t ht
      have hnext := hkept' (f t) (mem_append_left _ (mem_map_of_mem ht))
      exact ⟨hnext.taskId.trans hfirst.taskId, hnext.parent.trans hfirst.parent,
        fun hend => hnext.terminal (hfirst.terminal hend),
        fun hknown => hnext.known (hfirst.known hknown)⟩

/-! ### New tasks -/

theorem find?_commit {row : CommandLogRow} (hf : Fresh db o)
    (hid : e.eventId = o.first.eventId.toText) :
    ((db.commit [e]).withLog row).events.find? (fun r => r.eventId = e.eventId)
      = some e.commandRow := by
  have hnone : db.events.find? (fun r => r.eventId = e.eventId) = none := by
    rw [find?_eq_none]
    intro r hr
    simpa using fun heq : r.eventId = e.eventId => hf.first (hid ▸ heq ▸ mem_map_of_mem hr)
  show (db.events ++ [e.commandRow]).find? _ = _
  rw [find?_append, hnone, Option.none_or]
  exact find?_cons_of_pos (decide_eq_true rfl)

section Creation

variable {s : SessionId} {title prompt : String} {repo base parent : Option String}

theorem execute_createTask (hg : GaplessLog db.events) (hk : KeysLogged db.events db.projections)
    (hf : Fresh db o) (hu : Unseen db command)
    (hp : command.payload = .createTask s title prompt repo base parent)
    (hcount : 0 < countEvents db s.toText) (hsession : s.toText ∈ db.projections.sessionIds) :
    ∃ e : EventEnvelope, e.eventId = o.first.eventId.toText ∧
      e.aggregateId = Id.toText (⟨o.aggregate⟩ : TaskId) ∧
      execute db command o = ((db.commit [e]).withLog (logRow command o (.ok [e.eventId])),
        .ok (.applied [e.eventId])) ∧
      stateOf (execute db command o).1 ⟨o.aggregate⟩ = some .created ∧
      ∃ t : TaskRow, (execute db command o).1.projections.tasks = db.projections.tasks ++ [t] ∧
        t.taskId = Id.toText (⟨o.aggregate⟩ : TaskId) ∧ t.state = "created" := by
  obtain ⟨es, hs⟩ : ∃ es, stage db o (.createTask s title prompt repo base parent) = .ok es :=
    ⟨_, stage_createTask hf hcount⟩
  obtain ⟨-, e, rfl, hopen⟩ := stage_createTask_ok hs
  rw [← hp] at hs
  have hproj : Projectable db.projections e :=
    hopen.projectable.mpr ⟨fun hmem => hf.aggregate (hk.tasks _ hmem), hsession⟩
  have hexec := execute_commit hg hf hu hs (clean_singleton hproj)
  refine ⟨e, hopen.eventId, hopen.aggregateId, hexec, ?_, ?_⟩
  · have hload : loadTaskEvents db ⟨o.aggregate⟩ = .ok [] := by
      have hnil : selectAggregate db (Id.toText (⟨o.aggregate⟩ : TaskId)) = [] :=
        selectAggregate_new hg hf.aggregate
      rw [loadTaskEvents, hnil]
      rfl
    have hx : Extended db [e] (db.commit [e]) := commit_extended hg hs 1
    have hfaithful : ∀ e' ∈ [e], e'.payload.Faithful :=
      fun e' he' => ((stage_ok hs).1.core e' he').faithful
    have hload' := loadTaskEvents_extended hg (hx.withLog (logRow command o (.ok [e.eventId])))
      hfaithful hload
    have hown : envelopesOf (Id.toText (⟨o.aggregate⟩ : TaskId)) [e] = [e] :=
      filter_cons_of_pos (decide_eq_true hopen.aggregateId)
    rw [hown, map_singleton, hopen.payload] at hload'
    rw [hexec]
    exact stateOf_eq hload' rfl
  · obtain ⟨p, hp'⟩ := project_ok_iff.mpr hproj
    obtain ⟨t, htasks, hid, hstate, -⟩ := hopen.project hp'
    refine ⟨t, ?_, hid, hstate⟩
    rw [hexec]
    show (applyOrKeep project db.projections e).tasks = _
    rw [applyOrKeep_ok hp', htasks]

theorem createTask_refused (hu : Unseen db command)
    (hp : command.payload = .createTask s title prompt repo base parent)
    (h : ¬ (0 < countEvents db s.toText ∧ s.toText ∈ db.projections.sessionIds)) :
    (execute db command o).1.projections = db.projections ∧
      ∃ reason, (execute db command o).2 = .ok (.rejected reason) := by
  cases hs : stage db o command.payload with
  | error reason =>
    have hr : planAndAppend db o command.payload = (db, .error reason) := by
      rw [planAndAppend, hs]
    rw [execute_unseen hu hr rfl]
    exact ⟨rfl, reason, rfl⟩
  | ok es =>
    obtain ⟨hcount, e, rfl, hopen⟩ := stage_createTask_ok (hp ▸ hs)
    rcases execute_single hu hs with hrejected | ⟨p, hproj, -, -⟩
    · exact hrejected
    · exact absurd ⟨hcount, (hopen.projectable.mp (project_ok_iff.mp ⟨p, hproj⟩)).2⟩ h

end Creation

end Commands

end Modbit
