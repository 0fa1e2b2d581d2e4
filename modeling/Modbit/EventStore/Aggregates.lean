import Modbit.EventStore.Rewind
import Modbit.EventStore.Streams

/-!
# Aggregates keep their kind

Commands name aggregates by identity alone, and so do the existence checks of the planner.

`Adds es e` says how an envelope may join a log: it opens an aggregate that has no event yet, or
goes on with one of its own kind.  `Homogeneous` is the invariant this keeps
(`Homogeneous.concat`), and `stage_adds` says that every plan consists of such envelopes, unless it
sets a goal on a session (`GoalOnSession`).

`wellTyped_of_path`: in a run in which no goal is set on a session and no task is created under a
task, every aggregate has one kind, begins with a creation of that kind, and every task belongs to
a session.
-/

namespace Modbit

open Lib List

/-! ### The invariant -/

def Begins : AggregateType → DomainEvent → Prop
  | .task, .taskCreated _ _ _ _ _ _ => True
  | .session, .sessionCreated _ => True
  | .session, .sessionForked _ _ _ _ => True
  | _, _ => False

inductive Adds (es : List EventEnvelope) (e : EventEnvelope) : Prop
  | opens (hnew : envelopesOf e.aggregateId es = []) (hb : Begins e.aggregateType e.payload)
  | continues {f : EventEnvelope} {rest : List EventEnvelope}
      (hs : envelopesOf e.aggregateId es = f :: rest) (ht : e.aggregateType = f.aggregateType)
      (hsid : e.aggregateType = .task → e.sessionId = f.sessionId)

/-- Every aggregate has one kind, of a session or a task, and begins with a creation
of it. -/
structure Homogeneous (es : List EventEnvelope) : Prop where
  kind : ∀ e ∈ es, e.aggregateType = .session ∨ e.aggregateType = .task
  same : ∀ id f rest, envelopesOf id es = f :: rest →
    ∀ e ∈ rest, e.aggregateType = f.aggregateType
  begins : ∀ id f rest, envelopesOf id es = f :: rest → Begins f.aggregateType f.payload

variable {es plan : List EventEnvelope} {e : EventEnvelope} {db : Db} {o : Oracle}
  {payload : CommandPayload}

theorem homogeneous_nil : Homogeneous [] := by
  refine ⟨by simp, ?_, ?_⟩
  · intro _ _ _ h
    cases h
  · intro _ _ _ h
    cases h

theorem kind_of_begins {t : AggregateType} {p : DomainEvent} (h : Begins t p) :
    t = .session ∨ t = .task := by
  cases t <;> first | exact Or.inl rfl | exact Or.inr rfl | (cases p <;> cases h)

variable {id : String}

theorem mem_of_envelopesOf {f : EventEnvelope} {rest : List EventEnvelope}
    (h : envelopesOf id es = f :: rest) : f ∈ es :=
  (mem_stream.mp (h ▸ mem_cons_self : f ∈ envelopesOf id es)).1

/-- The aggregates after an envelope has joined: an aggregate it opened, or one there
was, with the envelope at its end if it is its own. -/
theorem Adds.stream_cases (ha : Adds es e) {f : EventEnvelope}
    {rest : List EventEnvelope} (hcons : envelopesOf id (es ++ [e]) = f :: rest) :
    (f = e ∧ rest = [] ∧ Begins e.aggregateType e.payload) ∨
      ∃ rest', envelopesOf id es = f :: rest' ∧
        ∀ e' ∈ rest, e' ∈ rest' ∨ e'.aggregateType = f.aggregateType := by
  by_cases hid : e.aggregateId = id
  · subst hid
    rw [envelopesOf_concat_self] at hcons
    cases ha with
    | opens hnew hb =>
      rw [hnew, nil_append] at hcons
      obtain ⟨rfl, rfl⟩ := List.cons.inj hcons
      exact Or.inl ⟨rfl, rfl, hb⟩
    | continues hs ht _ =>
      rw [hs, cons_append] at hcons
      obtain ⟨rfl, rfl⟩ := List.cons.inj hcons
      refine Or.inr ⟨_, hs, fun e' he' => ?_⟩
      rcases mem_append.mp he' with he' | he'
      · exact Or.inl he'
      · rw [mem_singleton.mp he']
        exact Or.inr ht
  · rw [envelopesOf_concat_other hid] at hcons
    exact Or.inr ⟨rest, hcons, fun e' he' => Or.inl he'⟩

/-- **What joins keeps the kinds.** -/
theorem Homogeneous.concat (h : Homogeneous es) (ha : Adds es e) : Homogeneous (es ++ [e]) := by
  refine ⟨?_, ?_, ?_⟩
  · intro e' he'
    rcases mem_append.mp he' with he' | he'
    · exact h.kind e' he'
    · rw [mem_singleton.mp he']
      cases ha with
      | opens _ hb => exact kind_of_begins hb
      | continues hs ht _ =>
        rw [ht]
        exact h.kind _ (mem_of_envelopesOf hs)
  · intro id f rest hcons e' he'
    rcases ha.stream_cases hcons with ⟨_, rfl, _⟩ | ⟨rest', hold, hrest⟩
    · cases he'
    · rcases hrest e' he' with hmem | ht
      · exact h.same id f rest' hold e' hmem
      · exact ht
  · intro id f rest hcons
    rcases ha.stream_cases hcons with ⟨rfl, _, hb⟩ | ⟨rest', hold, _⟩
    · exact hb
    · exact h.begins id f rest' hold

/-! ### Plans -/

def goalTarget : CommandPayload → Option String
  | .setGoal taskId _ _ => some taskId.toText
  | _ => none

/-- The command sets a goal on an aggregate that has session events. -/
def GoalOnSession (db : Db) (payload : CommandPayload) : Prop :=
  ∃ r ∈ db.events, goalTarget payload = some r.aggregateId ∧ r.aggregateType = "session"

instance : Decidable (GoalOnSession db payload) :=
  inferInstanceAs (Decidable (∃ r ∈ db.events, _))

/-- A creation opens its aggregate: its number is `1`, so there was no event. -/
theorem envelopesOf_eq_nil (hr : Records db es) (h : 1 = nextSequence db id) :
    envelopesOf id es = [] := by
  rw [nextSequence_eq hr] at h
  exact eq_nil_of_length_eq_zero (by omega)

theorem kind_of_foldTask (hh : Homogeneous es) {state : TaskState}
    (hf : foldTask ((envelopesOf id es).map EventEnvelope.payload) = some (.ok state)) :
    ∃ f rest, envelopesOf id es = f :: rest ∧ f.aggregateType = .task := by
  obtain ⟨_, _, _, _, _, _, _, hcons⟩ := head_of_foldTask hf
  cases hstream : envelopesOf id es with
  | nil =>
    rw [hstream] at hcons
    cases hcons
  | cons f rest =>
    rw [hstream, map_cons] at hcons
    have hb := hh.begins id f rest hstream
    rw [(List.cons.inj hcons).1] at hb
    refine ⟨f, rest, rfl, ?_⟩
    cases ht : f.aggregateType <;> rw [ht] at hb <;> first | rfl | cases hb

theorem Records.payloadsTyped (hr : Records db es) : PayloadsTyped db := by
  intro r hmem
  rw [hr.events] at hmem
  obtain ⟨e, _, rfl⟩ := mem_map.mp hmem
  exact ⟨e.payload, rfl⟩

theorem adds_of_fold (hr : Records db es) (hh : Homogeneous es) {taskId : TaskId}
    {sessionId : SessionId} {history : List DomainEvent} {state : TaskState} {stamp : Stamp}
    {event : DomainEvent} {n : Nat} (hload : loadTaskEvents db taskId = .ok history)
    (hf : foldTask history = some (.ok state)) (hs : taskSession db taskId = .ok sessionId) :
    Adds es (taskEnvelope stamp taskId sessionId event n) := by
  rw [hr.history_eq hload] at hf
  obtain ⟨f, rest, hstream, ht⟩ := kind_of_foldTask hh hf
  obtain ⟨f', rest', hstream', hsid⟩ := taskSession_ok hr hs
  have hff : f = f' := (List.cons.inj (hstream.symm.trans hstream')).1
  exact .continues hstream ht.symm (fun _ => by rw [hff]; exact hsid.symm)

theorem Adds.again {e e' : EventEnvelope} (ha : Adds es e) (hid : e'.aggregateId = e.aggregateId)
    (ht : e'.aggregateType = e.aggregateType) (hsid : e'.sessionId = e.sessionId) :
    Adds (es ++ [e]) e' := by
  have hself : envelopesOf e'.aggregateId (es ++ [e]) = envelopesOf e.aggregateId es ++ [e] := by
    rw [hid, envelopesOf_concat_self]
  cases ha with
  | opens hnew _ =>
    rw [hnew, nil_append] at hself
    exact .continues hself ht (fun _ => hsid)
  | continues hs ht' hsid' =>
    rw [hs, cons_append] at hself
    refine .continues hself (ht.trans ht') (fun htask => ?_)
    exact hsid.trans (hsid' (ht.symm.trans htask))

theorem selectSession_of_task (hr : Records db es)
    (h : ∀ e ∈ envelopesOf id es, e.aggregateType = .task) : sessionSequence db id = 0 := by
  have hnil : (envelopesOf id es).filter (fun e => e.aggregateType = .session) = [] := by
    rw [filter_eq_nil_iff]
    intro e he
    simp [h e he]
  rw [sessionSequence, selectSession_eq hr, hnil]
  rfl

theorem exists_cons_of_countEvents (hr : Records db es) (h : 0 < countEvents db id) :
    ∃ f rest, envelopesOf id es = f :: rest := by
  rw [countEvents_eq hr] at h
  exact exists_cons_of_length_pos h

/-- **Every plan joins**, unless it sets a goal on a session. -/
theorem stage_adds (hr : Records db es) (hh : Homogeneous es)
    (hs : stage db o payload = .ok plan) (hgoal : ¬ GoalOnSession db payload) :
    Joins Adds es plan := by
  have hcont := stage_continues hr.gapless hs
  cases (stage_ok hs).1 with
  | session name => exact ⟨.opens (envelopesOf_eq_nil hr hcont.1) trivial, trivial⟩
  | task _ => exact ⟨.opens (envelopesOf_eq_nil hr hcont.1) trivial, trivial⟩
  | fork _ => exact ⟨.opens (envelopesOf_eq_nil hr hcont.1) trivial, trivial⟩
  | input hload hf _ hsess =>
    rw [inputEnvelopes]
    split
    · exact ⟨adds_of_fold hr hh hload hf hsess,
        (adds_of_fold hr hh hload hf hsess).again rfl rfl rfl, trivial⟩
    · exact ⟨adds_of_fold hr hh hload hf hsess, trivial⟩
  | lifecycle _ _ hload hf _ hsess => exact ⟨adds_of_fold hr hh hload hf hsess, trivial⟩
  | @question sessionId _ _ _ hcount =>
    obtain ⟨f, rest, hstream⟩ := exists_cons_of_countEvents hr hcount
    refine ⟨.continues hstream ?_ (fun h => by cases h), trivial⟩
    rcases hh.kind f (mem_of_envelopesOf hstream) with hk | hk
    · exact hk.symm
    · -- of a task: the planned number would be `1`, and the aggregate has an event
      have hall : ∀ e ∈ envelopesOf sessionId.toText es, e.aggregateType = .task := by
        intro e he
        rw [hstream] at he
        rcases mem_cons.mp he with rfl | he
        · exact hk
        · exact (hh.same _ f rest hstream e he).trans hk
      have hnum : sessionSequence db sessionId.toText + 1 = nextSequence db sessionId.toText :=
        hcont.1
      rw [selectSession_of_task hr hall, nextSequence_eq hr, hstream, length_cons] at hnum
      omega
  | @goal taskId sessionId _ _ hcount hsess =>
    obtain ⟨f, rest, hstream, hsid⟩ := taskSession_ok hr hsess
    refine ⟨.continues hstream ?_ (fun _ => hsid.symm), trivial⟩
    have hmem := mem_of_envelopesOf hstream
    rcases hh.kind f hmem with hk | hk
    · refine absurd ⟨f.storedRow, ?_, ?_, ?_⟩ hgoal
      · rw [hr.events]
        exact mem_map_of_mem hmem
      · have hid := (mem_stream.mp
          (hstream ▸ mem_cons_self : f ∈ envelopesOf taskId.toText es)).2
        exact congrArg some hid.symm
      · simp [EventEnvelope.storedRow, EventEnvelope.row, hk, AggregateType.asStr]
    · exact hk.symm
  | rewind hl hlast _ =>
    rw [loadSessionEnvelopes_nil hr.payloadsTyped hl] at hlast
    cases hlast

/-! ### Tasks and their sessions -/

def SessionIn (es : List EventEnvelope) (e : EventEnvelope) : Prop :=
  ∃ e' ∈ es, e'.aggregateType = .session ∧ e'.aggregateId = e.sessionId.toText

/-- Every task belongs to a session that has events. -/
def InSession (es : List EventEnvelope) : Prop :=
  ∀ e ∈ es, e.aggregateType = .task → SessionIn es e

/-- An envelope that joins, and if it is a task's creation, does so in a session. -/
def AddsInSession (es : List EventEnvelope) (e : EventEnvelope) : Prop :=
  Adds es e ∧ (Begins .task e.payload → SessionIn es e)

theorem SessionIn.mono (h : SessionIn es e) (more : List EventEnvelope) :
    SessionIn (es ++ more) e := by
  obtain ⟨e', he', hrest⟩ := h
  exact ⟨e', mem_append_left _ he', hrest⟩

theorem InSession.concat (h : InSession es) (ha : AddsInSession es e) : InSession (es ++ [e]) := by
  obtain ⟨hadds, hopen⟩ := ha
  intro x hx ht
  rcases mem_append.mp hx with hx | hx
  · exact (h x hx ht).mono _
  · obtain rfl := mem_singleton.mp hx
    cases hadds with
    | opens _ hb =>
      rw [ht] at hb
      exact (hopen hb).mono _
    | @continues f rest hs ht' hsid =>
      obtain ⟨e', he', hk, hid⟩ := h f (mem_of_envelopesOf hs) (ht'.symm.trans ht)
      exact ⟨e', mem_append_left _ he', hk, by rw [hid, hsid ht]⟩

def parentTarget : CommandPayload → Option String
  | .createTask sessionId _ _ _ _ _ => some sessionId.toText
  | _ => none

/-- The command creates a task under an aggregate that has task events. -/
def TaskUnderTask (db : Db) (payload : CommandPayload) : Prop :=
  ∃ r ∈ db.events, parentTarget payload = some r.aggregateId ∧ r.aggregateType = "task"

instance : Decidable (TaskUnderTask db payload) :=
  inferInstanceAs (Decidable (∃ r ∈ db.events, _))

theorem stage_sessionIn (hr : Records db es) (hh : Homogeneous es)
    (hs : stage db o payload = .ok plan) (htask : ¬ TaskUnderTask db payload) :
    ∀ e ∈ plan, Begins .task e.payload → SessionIn es e := by
  intro e he hb
  cases (stage_ok hs).1 with
  | @task sessionId _ _ _ _ _ hcount =>
    obtain rfl := mem_singleton.mp he
    obtain ⟨f, rest, hstream⟩ := exists_cons_of_countEvents hr hcount
    have hmem : f ∈ envelopesOf sessionId.toText es := hstream ▸ mem_cons_self
    obtain ⟨hf, hid⟩ := mem_stream.mp hmem
    refine ⟨f, hf, ?_, hid⟩
    rcases hh.kind f hf with hk | hk
    · exact hk
    · refine absurd ⟨f.storedRow, ?_, congrArg some hid.symm, ?_⟩ htask
      · rw [hr.events]
        exact mem_map_of_mem hf
      · simp [EventEnvelope.storedRow, EventEnvelope.row, hk, AggregateType.asStr]
  | input _ _ _ _ =>
    rcases mem_inputEnvelopes he with rfl | rfl
    · cases hb
    · cases hb
  | lifecycle _ hl _ _ _ _ =>
    obtain rfl := mem_singleton.mp he
    cases payload <;> cases hl <;> cases hb
  | session _ | question _ | goal _ _ | fork _ | rewind _ _ _ =>
    obtain rfl := mem_singleton.mp he
    cases hb

/-! ### Runs -/

/-- The event table: one kind for each aggregate, a creation of that kind first, and
every task in a session. -/
structure WellTyped (db : Db) : Prop where
  sameType : ∀ r ∈ db.events, ∀ r' ∈ db.events, r.aggregateId = r'.aggregateId →
    r.aggregateType = r'.aggregateType
  first : ∀ id r rest, EventRow.streamOf id db.events = r :: rest →
    ∃ kind p, r.aggregateType = AggregateType.asStr kind ∧
      DomainEvent.fromJson r.payloadInline = some p ∧ Begins kind p
  inSession : ∀ r ∈ db.events, r.aggregateType = "task" →
    ∃ r' ∈ db.events, r'.aggregateType = "session" ∧ r'.aggregateId = r.sessionId

theorem Homogeneous.kind_eq (h : Homogeneous es) {e e' : EventEnvelope} (he : e ∈ es)
    (he' : e' ∈ es) (hid : e.aggregateId = e'.aggregateId) :
    e.aggregateType = e'.aggregateType := by
  have hmem : e ∈ envelopesOf e'.aggregateId es := mem_stream.mpr ⟨he, hid⟩
  have hmem' : e' ∈ envelopesOf e'.aggregateId es := mem_stream.mpr ⟨he', rfl⟩
  cases hstream : envelopesOf e'.aggregateId es with
  | nil =>
    rw [hstream] at hmem
    cases hmem
  | cons f rest =>
    have hall : ∀ x ∈ envelopesOf e'.aggregateId es, x.aggregateType = f.aggregateType := by
      intro x hx
      rw [hstream] at hx
      rcases mem_cons.mp hx with rfl | hx
      · rfl
      · exact h.same _ f rest hstream x hx
    rw [hall e hmem, hall e' hmem']

theorem wellTyped_of_records (hr : Records db es) (hh : Homogeneous es) (hin : InSession es) :
    WellTyped db := by
  have hev := hr.events
  refine ⟨?_, ?_, ?_⟩
  · intro r hmem r' hmem' hid
    rw [hev] at hmem hmem'
    obtain ⟨e, he, rfl⟩ := mem_map.mp hmem
    obtain ⟨e', he', rfl⟩ := mem_map.mp hmem'
    exact congrArg AggregateType.asStr (hh.kind_eq he he' hid)
  · intro id r rest hcons
    rw [hev, streamOf_map] at hcons
    obtain ⟨f, rest', hstream, rfl, _⟩ := map_eq_cons_iff.mp hcons
    have hcore := hr.core f (mem_of_envelopesOf hstream)
    exact ⟨f.aggregateType, f.payload, rfl, DomainEvent.fromJson_toJson _ hcore.faithful,
      hh.begins id f rest' hstream⟩
  · intro r hmem ht
    rw [hev] at hmem ⊢
    obtain ⟨e, he, rfl⟩ := mem_map.mp hmem
    have hk : e.aggregateType = .task := AggregateType.asStr_inj ht
    obtain ⟨e', he', hk', hid⟩ := hin e he hk
    refine ⟨e'.storedRow, mem_map_of_mem he', ?_, hid⟩
    exact congrArg AggregateType.asStr hk'

/-- A call that sets no goal on a session and creates no task under a task. -/
def SoundCall (db : Db) (call : Call) : Prop :=
  Unseen db call.1 → ¬ GoalOnSession db call.1.payload ∧ ¬ TaskUnderTask db call.1.payload

instance (call : Call) : Decidable (SoundCall db call) := inferInstanceAs (Decidable (_ → _))

/-- **In every run of sound calls the aggregates keep their kinds.** -/
theorem wellTyped_of_path {db : Db} (h : Path executeCall SoundCall Db.empty db) :
    WellTyped db := by
  have hinv : ∃ es, Records db es ∧ Homogeneous es ∧ InSession es := by
    refine h.invariant (I := fun db => ∃ es, Records db es ∧ Homogeneous es ∧ InSession es) ?_ ?_
    · exact ⟨[], ⟨gapless_nil, rfl, by simp⟩, homogeneous_nil, fun _ h => by cases h⟩
    · rintro db call ⟨es, hr, hh, hin⟩ hok
      refine execute_records hr ⟨hh, hin⟩ (fun plan k hu hs _ => ?_)
      obtain ⟨hgoal, htask⟩ := hok hu
      have hadds : Joins AddsInSession es plan := by
        refine (stage_adds hr hh hs hgoal).imp (fun more e he ha => ⟨ha, fun hb => ?_⟩)
        exact (stage_sessionIn hr hh hs htask e he hb).mono more
      refine (hadds.take k).invariant (I := fun es => Homogeneous es ∧ InSession es) ?_ ⟨hh, hin⟩
      rintro log e ⟨hh, hin⟩ ha
      exact ⟨hh.concat ha.1, hin.concat ha⟩
  obtain ⟨es, hr, hh, hin⟩ := hinv
  exact wellTyped_of_records hr hh hin

def goalOnTask : List Call :=
  sampleCalls [.createSession "s", .createTask ⟨.ofNat 0⟩ "title" "prompt" none none none,
    .setGoal ⟨.ofNat 3⟩ "objective" []]

theorem wellTyped_goalOnTask : WellTyped (Db.afterCalls goalOnTask) := by
  have hok : Admits executeCall SoundCall Db.empty goalOnTask := by
    rw [executeCall_eq]
    decide +kernel
  exact wellTyped_of_path (path_of_admits goalOnTask hok)

def goalOnSession : List Call :=
  sampleCalls [.createSession "s", .setGoal ⟨.ofNat 0⟩ "objective" []]

/-- The goal becomes a task event of the session. -/
theorem not_wellTyped_goalOnSession : ¬ WellTyped (Db.afterCalls goalOnSession) := by
  intro h
  have hsame := h.sameType
  rw [afterCalls_eval] at hsame
  revert hsame
  decide +kernel

end Modbit
