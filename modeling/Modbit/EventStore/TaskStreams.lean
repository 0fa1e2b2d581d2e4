import Modbit.EventStore.Aggregates
import Modbit.EventStore.Rejection

/-!
# Task streams fold

A task's events, folded through the state machine, are to give a state: a stream the
machine rejects refuses every later command.  Lifecycle commands consult the machine
before they append; inputs consult the table `inputEffect`, and goals neither.

`Accepts` is what an envelope must meet to keep the streams foldable, and
`FoldsOk.concat` that it is enough.  `stage_accepts` says that every plan meets it,
unless it sets a goal on a session or falls into the gap between the two tables
(`gapTaken`).  `taskStreamsFold_of_path` is the result over runs.
-/

namespace Modbit

open Lib List

variable {es plan : List EventEnvelope} {e : EventEnvelope} {db : Db} {o : Oracle}
  {payload : CommandPayload}

/-! ### The invariant -/

def FoldsOk (es : List EventEnvelope) : Prop :=
  ∀ id f rest, envelopesOf id es = f :: rest → f.aggregateType = .task →
    ∃ state, foldTask ((envelopesOf id es).map EventEnvelope.payload) = some (.ok state)

/-- An envelope that joins, and is accepted in the state of its task. -/
def Accepts (es : List EventEnvelope) (e : EventEnvelope) : Prop :=
  Adds es e ∧ (e.aggregateType = .task → ∀ state,
    foldTask ((envelopesOf e.aggregateId es).map EventEnvelope.payload) = some (.ok state) →
      ∃ state', applyTaskEvent state e.payload = .ok state')

theorem foldTask_begins {p : DomainEvent} (h : Begins .task p) :
    foldTask [p] = some (.ok .created) := by
  cases p <;> first | rfl | cases h

/-- **What is accepted keeps the streams foldable.** -/
theorem FoldsOk.concat (h : FoldsOk es) (ha : Accepts es e) : FoldsOk (es ++ [e]) := by
  obtain ⟨hadds, hacc⟩ := ha
  intro id f rest hcons ht
  by_cases hid : e.aggregateId = id
  · subst hid
    rw [envelopesOf_concat_self] at hcons ⊢
    cases hadds with
    | opens hnew hb =>
      rw [hnew, nil_append] at hcons ⊢
      obtain ⟨rfl, _⟩ := List.cons.inj hcons
      rw [ht] at hb
      exact ⟨.created, foldTask_begins hb⟩
    | continues hs hk _ =>
      rw [hs, cons_append] at hcons
      obtain ⟨rfl, _⟩ := List.cons.inj hcons
      obtain ⟨state, hf⟩ := h _ _ _ hs ht
      obtain ⟨state', hstate'⟩ := hacc (hk.trans ht) state hf
      refine ⟨state', ?_⟩
      rw [map_append]
      exact foldTask_concat hf hstate'
  · rw [envelopesOf_concat_other hid] at hcons ⊢
    exact h id f rest hcons ht

/-! ### Plans -/

/-- The state a task's events fold to, when they do. -/
def stateOf (db : Db) (taskId : TaskId) : Option TaskState :=
  match loadTaskEvents db taskId with
  | .ok history =>
    match foldTask history with
    | some (.ok state) => some state
    | _ => none
  | .error _ => none

/-- The input falls into the gap: a side question on a failed task, or a steer of a
queued one that is written out to its second event. -/
def gapTaken (db : Db) : CommandPayload → Bool
  | .queueTaskInput taskId inputId mode _ =>
    match stateOf db taskId with
    | some state =>
      decide (PolicyGap state mode) &&
        decide (mode = .steer → inputId ∉ db.projections.inputIds ∧
          taskId.toText ∈ db.projections.taskIds)
    | none => false
  | _ => false

variable {taskId : TaskId} {history : List DomainEvent}

/-- An envelope of a task whose events fold to `state`, accepted in that state. -/
theorem accepts_of_fold (hr : Records db es) (hh : Homogeneous es)
    {sessionId : SessionId} {state state' : TaskState}
    {stamp : Stamp} {event : DomainEvent} {n : Nat}
    (hload : loadTaskEvents db taskId = .ok history)
    (hf : foldTask history = some (.ok state)) (hs : taskSession db taskId = .ok sessionId)
    (ha : applyTaskEvent state event = .ok state') :
    Accepts es (taskEnvelope stamp taskId sessionId event n) := by
  refine ⟨adds_of_fold hr hh hload hf hs, fun _ s hfold => ⟨state', ?_⟩⟩
  rw [hr.history_eq hload] at hf
  have hsame : s = state := by
    have := hfold.symm.trans hf
    exact Except.ok.inj (Option.some.inj this)
  rw [hsame]
  exact ha

theorem Accepts.again {e e' : EventEnvelope} {state state' : TaskState} (ha : Adds es e)
    (hfold : foldTask ((envelopesOf e.aggregateId es).map EventEnvelope.payload)
      = some (.ok state))
    (he : applyTaskEvent state e.payload = .ok state) (hid : e'.aggregateId = e.aggregateId)
    (ht : e'.aggregateType = e.aggregateType) (hsid : e'.sessionId = e.sessionId)
    (he' : applyTaskEvent state e'.payload = .ok state') : Accepts (es ++ [e]) e' := by
  refine ⟨ha.again hid ht hsid, fun _ s hs => ⟨state', ?_⟩⟩
  rw [hid, envelopesOf_concat_self, map_append, map_singleton, foldTask_concat hfold he] at hs
  rw [← Except.ok.inj (Option.some.inj hs)]
  exact he'

variable {state : TaskState}

theorem stateOf_eq (hload : loadTaskEvents db taskId = .ok history)
    (hf : foldTask history = some (.ok state)) : stateOf db taskId = some state := by
  rw [stateOf, hload]
  simp only [hf]

theorem input_accepts (hr : Records db es) (hh : Homogeneous es)
    {sessionId : SessionId} {inputId text : String} {mode : InputMode} {effect : InputEffect}
    (hload : loadTaskEvents db taskId = .ok history) (hf : foldTask history = some (.ok state))
    (he : inputEffect state mode = .ok effect) (hs : taskSession db taskId = .ok sessionId)
    (hgap : gapTaken db (.queueTaskInput taskId inputId mode text) = false) {k : Nat}
    (hclean : Clean project db.projections
      ((inputEnvelopes o taskId sessionId inputId mode text effect history.length).take (k - 1))) :
    Joins Accepts es
      ((inputEnvelopes o taskId sessionId inputId mode text effect history.length).take k) := by
  have hnogap : ¬ (PolicyGap state mode ∧ (mode = .steer →
      inputId ∉ db.projections.inputIds ∧ taskId.toText ∈ db.projections.taskIds)) := by
    simpa [gapTaken, stateOf_eq hload hf] using hgap
  have hinput : applyTaskEvent state (.taskInputQueued inputId mode text) = .ok state := by
    refine applyTaskEvent_input he (fun hside => hnogap ⟨Or.inr hside, fun hm => ?_⟩) inputId text
    rw [hside.1] at hm
    cases hm
  have hfirst : Accepts es (taskEnvelope o.first taskId sessionId
      (.taskInputQueued inputId mode text) (history.length + 1)) :=
    accepts_of_fold hr hh hload hf hs hinput
  rw [inputEnvelopes] at hclean ⊢
  split at hclean
  · next heff =>
    subst heff
    rw [if_pos rfl]
    rcases k with _ | _ | k
    · exact trivial
    · exact ⟨hfirst, trivial⟩
    · obtain ⟨hid, _, htask⟩ := projectable_input.mp (project_ok_iff.mp hclean.1)
      have hq : state ≠ .queued := by
        intro hq
        exact hnogap ⟨Or.inl ⟨inputEffect_redirects he, hq⟩, fun _ => ⟨hid, htask⟩⟩
      have hfold : foldTask ((envelopesOf taskId.toText es).map EventEnvelope.payload)
          = some (.ok state) := by
        rw [← hr.history_eq hload]
        exact hf
      rw [take_of_length_le (by simp)]
      exact ⟨hfirst, Accepts.again hfirst.1 hfold hinput rfl rfl rfl
        (applyTaskEvent_steered he hq text), trivial⟩
  · next heff =>
    rw [if_neg heff]
    exact Joins.singleton_take hfirst k

theorem accepts_session (ha : Adds es e) (ht : e.aggregateType = .session) : Accepts es e :=
  ⟨ha, fun htask => by rw [ht] at htask; cases htask⟩

/-- **Every plan is accepted as far as it is written**, unless it sets a goal on a
session or falls into the gap. -/
theorem stage_accepts (hr : Records db es) (hh : Homogeneous es)
    (hs : stage db o payload = .ok plan) (hgoal : ¬ GoalOnSession db payload)
    (hgap : gapTaken db payload = false) {k : Nat}
    (hclean : Clean project db.projections (plan.take (k - 1))) :
    Joins Accepts es (plan.take k) := by
  have hadds := stage_adds hr hh hs hgoal
  cases (stage_ok hs).1 with
  | session _ | question _ | fork _ | rewind _ _ _ =>
    exact Joins.singleton_take (accepts_session hadds.1 rfl) k
  | task _ =>
    have hnew : envelopesOf (Id.toText (⟨o.aggregate⟩ : TaskId)) es = [] :=
      envelopesOf_eq_nil hr (stage_continues hr.gapless hs).1
    refine Joins.singleton_take ⟨hadds.1, fun _ s hfold => ?_⟩ k
    rw [taskEnvelope_aggregateId, hnew] at hfold
    cases hfold
  | goal _ _ => exact Joins.singleton_take ⟨hadds.1, fun _ s _ => ⟨s, rfl⟩⟩ k
  | input hload hf he hsess => exact input_accepts hr hh hload hf he hsess hgap hclean
  | lifecycle _ _ hload hf ha hsess =>
    exact Joins.singleton_take (accepts_of_fold hr hh hload hf hsess ha) k

/-! ### Runs -/

/-- Every task in the event table has a stream that folds to a state. -/
def TaskStreamsFold (db : Db) : Prop :=
  ∀ r ∈ db.events, r.aggregateType = "task" →
    ∃ (taskId : TaskId) (history : List DomainEvent) (state : TaskState),
      r.aggregateId = taskId.toText ∧ loadTaskEvents db taskId = .ok history ∧
        foldTask history = some (.ok state)

theorem taskStreamsFold_of_records (hr : Records db es) (hh : Homogeneous es) (hf : FoldsOk es) :
    TaskStreamsFold db := by
  intro r hmem ht
  rw [hr.events] at hmem
  obtain ⟨e, he, rfl⟩ := mem_map.mp hmem
  have hk : e.aggregateType = .task := AggregateType.asStr_inj ht
  obtain ⟨u, hu⟩ := (hr.core e he).named
  have hmem : e ∈ envelopesOf e.aggregateId es := mem_stream.mpr ⟨he, rfl⟩
  cases hstream : envelopesOf e.aggregateId es with
  | nil =>
    rw [hstream] at hmem
    cases hmem
  | cons f rest =>
    have hf' := mem_stream.mp (hstream ▸ mem_cons_self : f ∈ envelopesOf e.aggregateId es)
    have hkf : f.aggregateType = .task := (hh.kind_eq hf'.1 he hf'.2).trans hk
    obtain ⟨state, hfold⟩ := hf _ f rest hstream hkf
    refine ⟨⟨u⟩, _, state, hu, loadTaskEvents_eq hr ⟨u⟩, ?_⟩
    rw [hu] at hfold
    exact hfold

/-- A call that sets no goal on a session and queues no input into the gap. -/
def FoldSafe (db : Db) (call : Call) : Prop :=
  Unseen db call.1 → ¬ GoalOnSession db call.1.payload ∧ gapTaken db call.1.payload = false

instance (call : Call) : Decidable (FoldSafe db call) := inferInstanceAs (Decidable (_ → _))

/-- **In every run of safe calls every task folds to a state.** -/
theorem taskStreamsFold_of_path {db : Db} (h : Path executeCall FoldSafe Db.empty db) :
    TaskStreamsFold db := by
  have hinv : ∃ es, Records db es ∧ Homogeneous es ∧ FoldsOk es := by
    refine h.invariant (I := fun db => ∃ es, Records db es ∧ Homogeneous es ∧ FoldsOk es) ?_ ?_
    · exact ⟨[], ⟨gapless_nil, rfl, by simp⟩, homogeneous_nil, fun _ _ _ h => by cases h⟩
    · rintro db call ⟨es, hr, hh, hf⟩ hok
      refine execute_records hr ⟨hh, hf⟩ (fun plan k hu hs hclean => ?_)
      obtain ⟨hgoal, hgap⟩ := hok hu
      refine (stage_accepts hr hh hs hgoal hgap hclean).invariant
        (I := fun es => Homogeneous es ∧ FoldsOk es) ?_ ⟨hh, hf⟩
      rintro log e ⟨hh, hf⟩ ha
      exact ⟨hh.concat ha.1, hf.concat ha⟩
  obtain ⟨es, hr, hh, hf⟩ := hinv
  exact taskStreamsFold_of_records hr hh hf

def steerRunning : List Call :=
  sampleCalls [.createSession "s", .createTask ⟨.ofNat 0⟩ "title" "prompt" none none none,
    .queueTask ⟨.ofNat 3⟩, .startTask ⟨.ofNat 3⟩, .queueTaskInput ⟨.ofNat 3⟩ "i" .steer "note"]

theorem taskStreamsFold_steerRunning : TaskStreamsFold (Db.afterCalls steerRunning) := by
  have hok : Admits executeCall FoldSafe Db.empty steerRunning := by
    rw [executeCall_eq]
    decide +kernel
  exact taskStreamsFold_of_path (path_of_admits steerRunning hok)

def steerQueued : List Call :=
  sampleCalls [.createSession "s", .createTask ⟨.ofNat 0⟩ "title" "prompt" none none none,
    .queueTask ⟨.ofNat 3⟩, .queueTaskInput ⟨.ofNat 3⟩ "i" .steer "note"]

/-- The steer is applied, and the task's stream does not fold any more. -/
theorem not_taskStreamsFold_steerQueued : ¬ TaskStreamsFold (Db.afterCalls steerQueued) := by
  rw [afterCalls_eval]
  intro h
  have hrow : ∃ r ∈ (run evalCall Db.empty steerQueued).events,
      r.aggregateType = "task" ∧ r.aggregateId = Id.toText (⟨.ofNat 3⟩ : TaskId) := by
    decide +kernel
  have hnone : stateOf (run evalCall Db.empty steerQueued) ⟨.ofNat 3⟩ = none := by decide +kernel
  obtain ⟨r, hr, ht, hid⟩ := hrow
  obtain ⟨taskId, history, state, hid', hload, hfold⟩ := h r hr ht
  have hsome := stateOf_eq hload hfold
  rw [← Id.toText_inj (hid.symm.trans hid'), hnone] at hsome
  cases hsome

end Modbit
