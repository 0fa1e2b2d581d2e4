import Modbit.EventStore.System

/-!
# Reading a recorded log

`Records db es` says that the log of `db` is the list `es` of envelopes of the
command path, in order.  The queries of the planner then have answers in terms of
`es`: `loadTaskEvents_eq`, `taskSession_eq`, `countEvents_eq`, `nextSequence_eq`.
`records_afterCalls` is the list of a run of commands, and `Records.commit` what a
plan adds to it.
-/

namespace Modbit

open Lib List

abbrev envelopesOf (aggregateId : String) (es : List EventEnvelope) : List EventEnvelope :=
  stream EventEnvelope.aggregateId aggregateId es

variable {es : List EventEnvelope}

theorem envelopesOf_concat_self (e : EventEnvelope) :
    envelopesOf e.aggregateId (es ++ [e]) = envelopesOf e.aggregateId es ++ [e] :=
  stream_concat_self

theorem envelopesOf_concat_other {e : EventEnvelope} {id : String}
    (h : e.aggregateId ≠ id) : envelopesOf id (es ++ [e]) = envelopesOf id es :=
  stream_concat_other h

/-- The log consists of the given envelopes, all of the command path. -/
structure Records (db : Db) (es : List EventEnvelope) : Prop where
  gapless : GaplessLog db.events
  events : db.events = es.map EventEnvelope.storedRow
  core : ∀ e ∈ es, Core e

variable {db : Db} {es : List EventEnvelope} {o : Oracle} {payload : CommandPayload}

theorem records_afterCalls (calls : List Call) :
    Records (Db.afterCalls calls) (written .empty (calls.map Call.op)) := by
  rw [afterCalls_eq]
  exact ⟨after_gapless _, after_events _, written_core calls⟩

theorem Records.commit {plan : List EventEnvelope} (h : Records db es)
    (hs : stage db o payload = .ok plan) (k : Nat) :
    Records (db.commit (plan.take k)) (es ++ plan.take k) := by
  have hx := commit_extended h.gapless hs k
  refine ⟨hx.gapless, ?_, ?_⟩
  · rw [hx.events, h.events, map_append]
  · intro e he
    rcases mem_append.mp he with he | he
    · exact h.core e he
    · exact (stage_ok hs).1.core e (mem_of_mem_take he)

theorem Records.withLog (h : Records db es) (row : CommandLogRow) : Records (db.withLog row) es :=
  ⟨h.gapless, h.events, h.core⟩

theorem Records.execute (h : Records db es) (command : Command) (o : Oracle) :
    Records (execute db command o).1 (es ++ acceptedPlan db command o) := by
  have hx : Extended db (acceptedPlan db command o) (Modbit.execute db command o).1 :=
    execute_extended h.gapless
  refine ⟨hx.gapless, ?_, ?_⟩
  · rw [hx.events, h.events, map_append]
  · intro e he
    rcases mem_append.mp he with he | he
    · exact h.core e he
    · exact acceptedPlan_core he

/-- **The rule for invariants of the recorded list.**  What holds of it, and of it
with every first part of every plan, holds of the list recorded after the call. -/
theorem execute_records {command : Command} {I : List EventEnvelope → Prop} (h : Records db es)
    (hI : I es)
    (hstep : ∀ plan k, Unseen db command → stage db o command.payload = .ok plan →
      Clean project db.projections (plan.take (k - 1)) → I (es ++ plan.take k)) :
    ∃ es', Records (execute db command o).1 es' ∧ I es' := by
  have hres := execute_result db command o
  generalize execute db command o = r at hres
  cases hres with
  | seen _ => exact ⟨es, h, hI⟩
  | refused _ _ => exact ⟨es, h.withLog _, hI⟩
  | @applied plan hu hs hclean =>
    have hx := h.commit hs plan.length
    have hI' := hstep plan plan.length hu hs (hclean.take _)
    rw [take_length] at hx hI'
    exact ⟨_, hx.withLog _, hI'⟩
  | @stopped plan k _ hu hs _ hclean =>
    exact ⟨_, (h.commit hs k).withLog _, hstep plan k hu hs hclean⟩

theorem streamOf_map (aggregateId : String) (es : List EventEnvelope) :
    EventRow.streamOf aggregateId (es.map EventEnvelope.storedRow)
      = (envelopesOf aggregateId es).map EventEnvelope.storedRow :=
  filter_map

theorem nextSeq_map (hg : GaplessLog (es.map EventEnvelope.storedRow)) (aggregateId : String) :
    nextSeq EventRow.aggregateId EventRow.sequence aggregateId (es.map EventEnvelope.storedRow)
      = (envelopesOf aggregateId es).length + 1 := by
  have hlen : (EventRow.streamOf aggregateId (es.map EventEnvelope.storedRow)).length
      = (envelopesOf aggregateId es).length := by
    rw [streamOf_map, length_map]
  rw [hg.nextSeq_eq]
  exact congrArg (· + 1) hlen

theorem selectAggregate_stored (hg : GaplessLog db.events)
    (hev : db.events = es.map EventEnvelope.storedRow) (aggregateId : String) :
    selectAggregate db aggregateId
      = (envelopesOf aggregateId es).map EventEnvelope.storedRow := by
  rw [selectAggregate, hg.inOrder_eq, hev, ← streamOf_map]

theorem selectAggregate_eq (h : Records db es) (aggregateId : String) :
    selectAggregate db aggregateId
      = (envelopesOf aggregateId es).map EventEnvelope.storedRow :=
  selectAggregate_stored h.gapless h.events aggregateId

theorem countEvents_eq (h : Records db es) (aggregateId : String) :
    countEvents db aggregateId = (envelopesOf aggregateId es).length := by
  rw [countEvents, h.events, streamOf_map, length_map]

theorem nextSequence_eq (h : Records db es) (aggregateId : String) :
    nextSequence db aggregateId = (envelopesOf aggregateId es).length + 1 := by
  have hg := h.gapless
  rw [h.events] at hg
  rw [nextSequence, h.events, nextSeq_map hg]

theorem loadTaskEvents_eq (h : Records db es) (taskId : TaskId) :
    loadTaskEvents db taskId
      = .ok ((envelopesOf taskId.toText es).map EventEnvelope.payload) := by
  have hread : ∀ r ∈ envelopesOf taskId.toText es,
      okOr (DomainEvent.fromJson r.storedRow.payloadInline) Reason.serde = .ok r.payload := by
    intro e he
    have hcore := h.core e (mem_stream.mp he).1
    exact okOr_eq_ok.mpr (DomainEvent.fromJson_toJson e.payload hcore.faithful)
  rw [loadTaskEvents, selectAggregate_eq h, mapM_map]
  exact mapM_eq_map.mpr hread

variable {taskId : TaskId}

theorem Records.history_eq {history : List DomainEvent} (h : Records db es)
    (hload : loadTaskEvents db taskId = .ok history) :
    history = (envelopesOf taskId.toText es).map EventEnvelope.payload :=
  Except.ok.inj (hload.symm.trans (loadTaskEvents_eq h taskId))

theorem taskSession_eq (h : Records db es) {e : EventEnvelope}
    {rest : List EventEnvelope} (hs : envelopesOf taskId.toText es = e :: rest) :
    taskSession db taskId = .ok e.sessionId := by
  rw [taskSession, selectAggregate_eq h, hs, map_cons, head?_cons, okOr_some, ok_bind]
  exact okOr_eq_ok.mpr (Id.parse_toText e.sessionId)

theorem taskSession_ok (h : Records db es) {sessionId : SessionId}
    (hs : taskSession db taskId = .ok sessionId) :
    ∃ e rest, envelopesOf taskId.toText es = e :: rest ∧ e.sessionId = sessionId := by
  cases hstream : envelopesOf taskId.toText es with
  | nil =>
    rw [taskSession, selectAggregate_eq h, hstream] at hs
    cases hs
  | cons e rest =>
    rw [taskSession_eq h hstream] at hs
    exact ⟨e, rest, rfl, Except.ok.inj hs⟩

theorem selectSession_eq (h : Records db es) (aggregateId : String) :
    selectSession db aggregateId
      = ((envelopesOf aggregateId es).filter (fun e => e.aggregateType = .session)).map
          EventEnvelope.storedRow := by
  have htype : ∀ e : EventEnvelope,
      decide (e.storedRow.aggregateType = "session") = decide (e.aggregateType = .session) := by
    intro e
    cases ht : e.aggregateType <;>
      simp [EventEnvelope.storedRow, EventEnvelope.row, ht, AggregateType.asStr]
  rw [selectSession, h.events, streamOf_map, filter_map]
  simp only [Function.comp_def, htype]

end Modbit
