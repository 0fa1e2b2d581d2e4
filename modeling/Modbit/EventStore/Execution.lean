import Modbit.EventStore.Commands

/-!
# What executing a command can do

The inversion lemmas every later result is derived from.  `Staged` lists, command
by command, the envelopes a plan consists of and what was checked for it
(`plan_staged`).  `commitLoop_result` says how far the insert-and-project loop gets,
and `execute_result` puts the two together: a command is answered from the log,
refused before anything is written, applied, or stopped after a first part of its
envelopes went in.

`Core` collects what holds of every envelope the command path stages.
-/

namespace Modbit

open Lib List

/-! ### Plans -/

/-- The envelopes of a queued input; a steer has a second one. -/
def inputEnvelopes (o : Oracle) (taskId : TaskId) (sessionId : SessionId) (inputId : String)
    (mode : InputMode) (text : String) (effect : InputEffect) (n : Nat) : List EventEnvelope :=
  let input := taskEnvelope o.first taskId sessionId (.taskInputQueued inputId mode text) (n + 1)
  let steered := taskEnvelope o.second taskId sessionId (.taskSteered text) (n + 2)
  if effect = .redirectsTask then [input, steered] else [input]

inductive Staged (tx : Db) (o : Oracle) : CommandPayload → List EventEnvelope → Prop
  | session (displayName : String) :
      Staged tx o (.createSession displayName)
        [sessionEnvelope o.first ⟨o.aggregate⟩ (.sessionCreated displayName) 1]
  | task {sessionId : SessionId} {title prompt : String} {repo base parent : Option String}
      (hs : 0 < countEvents tx sessionId.toText) :
      Staged tx o (.createTask sessionId title prompt repo base parent)
        [taskEnvelope o.first ⟨o.aggregate⟩ sessionId
          (.taskCreated sessionId title prompt repo base parent) 1]
  | input {taskId : TaskId} {sessionId : SessionId} {inputId text : String} {mode : InputMode}
      {history : List DomainEvent} {state : TaskState} {effect : InputEffect}
      (hh : loadTaskEvents tx taskId = .ok history) (hf : foldTask history = some (.ok state))
      (he : inputEffect state mode = .ok effect) (hs : taskSession tx taskId = .ok sessionId) :
      Staged tx o (.queueTaskInput taskId inputId mode text)
        (inputEnvelopes o taskId sessionId inputId mode text effect history.length)
  | question {sessionId : SessionId} {questionId question : String} {n : Nat}
      (hs : 0 < countEvents tx sessionId.toText) :
      Staged tx o (.askSideQuestion sessionId questionId question n)
        [sessionEnvelope o.first sessionId (.sideQuestionAsked questionId question n)
          (sessionSequence tx sessionId.toText + 1)]
  | goal {taskId : TaskId} {sessionId : SessionId} {objective : String} {criteria : List String}
      (ht : 0 < countEvents tx taskId.toText) (hs : taskSession tx taskId = .ok sessionId) :
      Staged tx o (.setGoal taskId objective criteria)
        [taskEnvelope o.first taskId sessionId (.goalSet objective criteria)
          (goalStreamLen tx taskId + 1)]
  | fork {source : SessionId} {at_ : Nat} {decisions evidence : List String}
      (hn : 1 ≤ at_ ∧ at_ ≤ sourceStreamLen tx source.toText) :
      Staged tx o (.forkSession source at_ decisions evidence)
        [sessionEnvelope o.first ⟨o.aggregate⟩ (.sessionForked source at_ decisions evidence) 1]
  | rewind {sessionId : SessionId} {n : Nat} {stream : List EventEnvelope} {last : EventEnvelope}
      (hl : loadSessionEnvelopes tx sessionId.toText = .ok stream)
      (hlast : stream.getLast? = some last) (hn : 1 ≤ n ∧ n < last.sequence) :
      Staged tx o (.rewindSession sessionId n last.integrityHash)
        [sessionEnvelope o.first sessionId
          (.sessionRewound n (last.sequence - n) last.integrityHash) (last.sequence + 1)]
  | lifecycle {payload : CommandPayload} {taskId : TaskId} {sessionId : SessionId}
      {event : DomainEvent} {history : List DomainEvent} {state state' : TaskState}
      (ht : payload.targetAggregate = some taskId.toText)
      (hl : lifecycleEvent payload = some event)
      (hh : loadTaskEvents tx taskId = .ok history) (hf : foldTask history = some (.ok state))
      (ha : applyTaskEvent state event = .ok state') (hs : taskSession tx taskId = .ok sessionId) :
      Staged tx o payload [taskEnvelope o.first taskId sessionId event (history.length + 1)]

variable {tx : Db} {o : Oracle} {payload : CommandPayload} {es : List EventEnvelope}

theorem currentState_ok {taskId : TaskId} {history : List DomainEvent} {state : TaskState}
    (h : currentState taskId history = .ok state) : foldTask history = some (.ok state) := by
  rw [currentState] at h
  obtain ⟨folded, hf, h⟩ := bind_eq_ok.mp h
  rw [okOr_eq_ok.mp hf, ok_of_mapError _ h]

theorem targetAggregate_lifecycle {event : DomainEvent} (h : lifecycleEvent payload = some event) :
    ∃ taskId : TaskId, payload.targetAggregate = some taskId.toText := by
  cases payload <;> cases h <;> exact ⟨_, rfl⟩

theorem planLifecycle_staged (h : planLifecycle tx o payload = .ok es) :
    Staged tx o payload es := by
  rw [planLifecycle] at h
  obtain ⟨aggregate, hagg, h⟩ := bind_eq_ok.mp h
  obtain ⟨taskId, hparse, h⟩ := bind_eq_ok.mp h
  obtain ⟨history, hh, h⟩ := bind_eq_ok.mp h
  obtain ⟨state, hf, h⟩ := bind_eq_ok.mp h
  obtain ⟨_, _, h⟩ := bind_eq_ok.mp h
  obtain ⟨event, hl, h⟩ := bind_eq_ok.mp h
  obtain ⟨state', ha, h⟩ := bind_eq_ok.mp h
  obtain ⟨sessionId, hs, h⟩ := bind_eq_ok.mp h
  have hl' := okOr_eq_ok.mp hl
  obtain ⟨target, htarget⟩ := targetAggregate_lifecycle hl'
  have hsame : aggregate = target.toText :=
    Option.some.inj ((okOr_eq_ok.mp hagg).symm.trans htarget)
  have hid : taskId = target := by
    have := okOr_eq_ok.mp hparse
    rw [hsame, Id.parse_toText] at this
    exact (Option.some.inj this).symm
  subst hid
  cases h
  exact .lifecycle htarget hl' hh (currentState_ok hf) (ok_of_mapError _ ha) hs

/-- **A plan is one of the listed ones.** -/
theorem plan_staged (h : plan tx o payload = .ok es) : Staged tx o payload es := by
  cases payload
  case createSession name => cases h; exact .session name
  case createTask sessionId title prompt repo base parent =>
    obtain ⟨_, hs, h⟩ := bind_eq_ok.mp h
    cases h
    exact .task (by simpa [sessionExists, Nat.pos_iff_ne_zero] using refuseIf_eq_ok.mp hs)
  case queueTaskInput taskId inputId mode text =>
    obtain ⟨history, hh, h⟩ := bind_eq_ok.mp h
    obtain ⟨state, hf, h⟩ := bind_eq_ok.mp h
    obtain ⟨effect, he, h⟩ := bind_eq_ok.mp h
    obtain ⟨sessionId, hs, h⟩ := bind_eq_ok.mp h
    cases h
    exact .input hh (currentState_ok hf) (ok_of_mapError _ he) hs
  case askSideQuestion sessionId questionId question n =>
    obtain ⟨_, hs, h⟩ := bind_eq_ok.mp h
    cases h
    exact .question (by simpa [sessionExists, Nat.pos_iff_ne_zero] using refuseIf_eq_ok.mp hs)
  case setGoal taskId objective criteria =>
    obtain ⟨_, ht, h⟩ := bind_eq_ok.mp h
    obtain ⟨sessionId, hs, h⟩ := bind_eq_ok.mp h
    cases h
    exact .goal (by simpa [taskExists, Nat.pos_iff_ne_zero] using refuseIf_eq_ok.mp ht) hs
  case forkSession source at_ decisions evidence =>
    obtain ⟨_, hn, h⟩ := bind_eq_ok.mp h
    cases h
    have hn' := refuseIf_eq_ok.mp hn
    exact .fork (by omega)
  case rewindSession sessionId n hash =>
    obtain ⟨stream, hl, h⟩ := bind_eq_ok.mp h
    obtain ⟨last, hlast, h⟩ := bind_eq_ok.mp h
    obtain ⟨_, hhash, h⟩ := bind_eq_ok.mp h
    obtain ⟨_, hn, h⟩ := bind_eq_ok.mp h
    cases h
    have hhash' := not_not.mp (refuseIf_eq_ok.mp hhash)
    have hn' := refuseIf_eq_ok.mp hn
    subst hhash'
    exact .rewind hl (okOr_eq_ok.mp hlast) (by omega)
  all_goals exact planLifecycle_staged h

/-! ### The envelopes -/

/-- What holds of every envelope the command path stages. -/
structure Core (e : EventEnvelope) : Prop where
  verified : e.verifyIntegrity = true
  faithful : e.payload.Faithful
  version : e.schemaVersion = SCHEMA_VERSION
  noObject : e.payloadObjectHash = none
  derived : aggregateIds e.aggregateType e.aggregateId = .ok e.ids
  named : ∃ u : Uuid, e.aggregateId = u.toText
  typed : e.eventType = eventTypeOf e.payload

variable {e : EventEnvelope}

theorem Core.commandRow_eq (h : Core e) : e.commandRow = e.storedRow := by
  rw [EventEnvelope.commandRow, EventEnvelope.storedRow, h.version]

/-- The rows of the command path are those `insert_event` would have written. -/
theorem map_commandRow (h : ∀ e ∈ es, Core e) :
    es.map EventEnvelope.commandRow = es.map EventEnvelope.storedRow :=
  map_congr_left fun e he => (h e he).commandRow_eq

section Envelopes

variable {stamp : Stamp} {taskId : TaskId} {sessionId : SessionId} {event : DomainEvent} {n : Nat}

@[simp] theorem taskEnvelope_eventId :
    (taskEnvelope stamp taskId sessionId event n).eventId = stamp.eventId.toText := rfl

@[simp] theorem taskEnvelope_sessionId :
    (taskEnvelope stamp taskId sessionId event n).sessionId = sessionId := rfl

@[simp] theorem taskEnvelope_aggregateType :
    (taskEnvelope stamp taskId sessionId event n).aggregateType = .task := rfl

@[simp] theorem taskEnvelope_aggregateId :
    (taskEnvelope stamp taskId sessionId event n).aggregateId = taskId.toText := rfl

@[simp] theorem taskEnvelope_sequence :
    (taskEnvelope stamp taskId sessionId event n).sequence = n := rfl

@[simp] theorem taskEnvelope_payload :
    (taskEnvelope stamp taskId sessionId event n).payload = event := rfl

theorem core_sessionEnvelope (h : event.Faithful) :
    Core (sessionEnvelope stamp sessionId event n) :=
  ⟨EventEnvelope.verifyIntegrity_sealed _, h, rfl, rfl, rfl, ⟨sessionId.uuid, rfl⟩, rfl⟩

theorem core_taskEnvelope (h : event.Faithful) :
    Core (taskEnvelope stamp taskId sessionId event n) := by
  refine ⟨EventEnvelope.verifyIntegrity_sealed _, h, rfl, rfl, ?_, ⟨taskId.uuid, rfl⟩, rfl⟩
  simp [aggregateIds, EventEnvelope.ids, taskEnvelope, EventEnvelope.sealed, envelopeFor]

end Envelopes

theorem lifecycleEvent_faithful {event : DomainEvent} (h : lifecycleEvent payload = some event) :
    event.Faithful := by
  cases payload <;> cases h <;> exact trivial

theorem mem_inputEnvelopes {taskId : TaskId} {sessionId : SessionId} {inputId text : String}
    {mode : InputMode} {effect : InputEffect} {n : Nat}
    (h : e ∈ inputEnvelopes o taskId sessionId inputId mode text effect n) :
    e = taskEnvelope o.first taskId sessionId (.taskInputQueued inputId mode text) (n + 1) ∨
      e = taskEnvelope o.second taskId sessionId (.taskSteered text) (n + 2) := by
  rw [inputEnvelopes] at h
  split at h
  · simpa using h
  · exact Or.inl (mem_singleton.mp h)

theorem Staged.core (h : Staged tx o payload es) : ∀ e ∈ es, Core e := by
  intro e he
  cases h with
  | input _ _ _ _ =>
    rcases mem_inputEnvelopes he with rfl | rfl
    · exact core_taskEnvelope trivial
    · exact core_taskEnvelope trivial
  | lifecycle _ hl _ _ _ _ =>
    rw [mem_singleton.mp he]
    exact core_taskEnvelope (lifecycleEvent_faithful hl)
  | task _ | goal _ _ =>
    rw [mem_singleton.mp he]
    exact core_taskEnvelope trivial
  | session _ | question _ | fork _ | rewind _ _ _ =>
    rw [mem_singleton.mp he]
    exact core_sessionEnvelope trivial

/-! ### The continuity check -/

theorem continuity_continues : ∀ {es : List EventEnvelope} {map : List (String × Nat)}
    {log : List EventRow}, GaplessLog log →
    Tracks EventRow.aggregateId EventRow.sequence map tx.events log →
    continuity tx map es = .ok () →
      Continues EventRow.aggregateId EventRow.sequence log (es.map EventEnvelope.commandRow) := by
  intro es
  induction es with
  | nil => intro _ _ _ _ _; exact trivial
  | cons e es ih =>
    intro map log hg ht h
    rw [continuity] at h
    obtain ⟨_, hseq, h⟩ := bind_eq_ok.mp h
    have hseq' := not_not.mp (refuseIf_eq_ok.mp hseq)
    have hnext : e.commandRow.sequence =
        nextSeq EventRow.aggregateId EventRow.sequence e.commandRow.aggregateId log :=
      hseq'.trans (ht e.aggregateId)
    exact ⟨hnext, ih (hg.concat hnext) (ht.concat hg hnext) h⟩

theorem stage_ok (h : stage tx o payload = .ok es) :
    Staged tx o payload es ∧ continuity tx [] es = .ok () := by
  rw [stage] at h
  obtain ⟨events, hp, h⟩ := bind_eq_ok.mp h
  obtain ⟨_, hc, h⟩ := bind_eq_ok.mp h
  cases h
  exact ⟨plan_staged hp, hc⟩

theorem stage_continues (hg : GaplessLog tx.events) (h : stage tx o payload = .ok es) :
    Continues EventRow.aggregateId EventRow.sequence tx.events
      (es.map EventEnvelope.commandRow) :=
  continuity_continues hg tracks_nil (stage_ok h).2

/-! ### The loop -/

/-- The database with envelopes inserted and projected, refusals skipped. -/
def Db.commit (tx : Db) (es : List EventEnvelope) : Db :=
  { tx with events := tx.events ++ es.map EventEnvelope.commandRow,
            projections := lenient project tx.projections es }

@[simp] theorem Db.commit_nil : tx.commit [] = tx := by
  simp [Db.commit]

theorem Db.commit_cons : tx.commit (e :: es)
      = (tx.extend e.commandRow (applyOrKeep project tx.projections e)).commit es := by
  simp [Db.commit, Db.extend]

/-- How the loop ends: everything went in, or it stopped with the first `k`
envelopes in the log, the last of them perhaps not projected. -/
inductive CommitResult (tx : Db) (es : List EventEnvelope) :
    Db × Except Reason (List String) → Prop
  | done (hclean : Clean project tx.projections es) :
      CommitResult tx es (tx.commit es, .ok (es.map EventEnvelope.eventId))
  | stopped (k : Nat) (x : Reason) (hk : k ≤ es.length)
      (hclean : Clean project tx.projections (es.take (k - 1))) :
      CommitResult tx es (tx.commit (es.take k), .error x)

theorem CommitResult.cons {p : Projections}
    {r : Db × Except Reason (List String)} (hp : project tx.projections e = .ok p)
    (h : CommitResult (tx.extend e.commandRow p) es r) :
    CommitResult tx (e :: es) (r.1, r.2.map (fun ids => e.eventId :: ids)) := by
  have hkeep : applyOrKeep project tx.projections e = p := applyOrKeep_ok hp
  have hcommit : ∀ more, tx.commit (e :: more) = (tx.extend e.commandRow p).commit more :=
    fun more => by rw [Db.commit_cons, hkeep]
  cases h with
  | done hclean =>
    rw [← hcommit]
    exact .done ⟨⟨p, hp⟩, hkeep ▸ hclean⟩
  | stopped k x hk hclean =>
    rw [← hcommit, ← take_succ_cons]
    refine .stopped (k + 1) x (by simpa using hk) ?_
    cases k with
    | zero => exact trivial
    | succ k => exact ⟨⟨p, hp⟩, hkeep ▸ hclean⟩

theorem projectInto_inserted {r : EventRow} : projectInto { tx with events := tx.events ++ [r] } e
      = (project tx.projections e).map (tx.extend r) := rfl

/-- **How far the loop gets.** -/
theorem commitLoop_result : ∀ {es : List EventEnvelope} {tx : Db},
    (∀ e ∈ es, e.verifyIntegrity = true) → CommitResult tx es (commitLoop tx es) := by
  intro es
  induction es with
  | nil =>
    intro tx _
    have h : CommitResult tx [] (tx.commit [], .ok []) := .done trivial
    rwa [Db.commit_nil] at h
  | cons e es ih =>
    intro tx hv
    rw [commitLoop, if_neg (by simp [hv e mem_cons_self])]
    cases hi : insertEventRow tx e.commandRow with
    | error x =>
      have h : CommitResult tx (e :: es) (tx.commit ((e :: es).take 0), .error (.sqlite x)) :=
        .stopped 0 _ (Nat.zero_le _) trivial
      rwa [take_zero, Db.commit_nil] at h
    | ok inserted =>
      have hin := insertEventRow_ok hi
      subst hin
      simp only [projectInto_inserted]
      cases hp : project tx.projections e with
      | error x =>
        have h : CommitResult tx (e :: es) (tx.commit ((e :: es).take 1), .error (.sqlite x)) :=
          .stopped 1 _ (by simp) trivial
        rwa [take_succ_cons, take_zero, Db.commit_cons, Db.commit_nil, applyOrKeep_error hp] at h
      | ok p =>
        have hv' : ∀ e' ∈ es, e'.verifyIntegrity = true :=
          fun e' he' => hv e' (mem_cons_of_mem e he')
        exact CommitResult.cons hp (ih hv')

/-! ### The whole call -/

def Unseen (db : Db) (command : Command) : Prop :=
  command.commandId ∉ db.commandLog.map CommandLogRow.commandId

instance (db : Db) (command : Command) : Decidable (Unseen db command) :=
  inferInstanceAs (Decidable (_ ∉ _))

def Db.withLog (db : Db) (row : CommandLogRow) : Db :=
  { db with commandLog := db.commandLog ++ [row] }

variable {db : Db} {command : Command}

theorem find?_eq_none_iff :
    db.commandLog.find? (fun r => r.commandId = command.commandId) = none ↔ Unseen db command := by
  simp [Unseen]

/-- What a call can do: answer from the log, refuse the plan, write the whole
plan, or write a first part of it and reject the command. -/
inductive ExecuteResult (db : Db) (command : Command) (o : Oracle) :
    Db × Except StoreError Outcome → Prop
  | seen {row : CommandLogRow}
      (hrow : db.commandLog.find? (fun r => r.commandId = command.commandId) = some row) :
      ExecuteResult db command o (db, .ok (recordedOutcome row))
  | refused {reason : Reason} (hu : Unseen db command)
      (hs : stage db o command.payload = .error reason) :
      ExecuteResult db command o
        (db.withLog (logRow command o (.error reason)), .ok (.rejected reason))
  | applied {es : List EventEnvelope} (hu : Unseen db command)
      (hs : stage db o command.payload = .ok es) (hclean : Clean project db.projections es) :
      ExecuteResult db command o
        ((db.commit es).withLog (logRow command o (.ok (es.map EventEnvelope.eventId))),
          .ok (.applied (es.map EventEnvelope.eventId)))
  | stopped {es : List EventEnvelope} {k : Nat} {x : Reason} (hu : Unseen db command)
      (hs : stage db o command.payload = .ok es) (hk : k ≤ es.length)
      (hclean : Clean project db.projections (es.take (k - 1))) :
      ExecuteResult db command o
        ((db.commit (es.take k)).withLog (logRow command o (.error x)), .ok (.rejected x))

theorem insertCommandLog_unseen {r : Except Reason (List String)} (hu : Unseen db command) :
    insertCommandLog db (logRow command o r) = .ok (db.withLog (logRow command o r)) := by
  have hid : (logRow command o r).commandId = command.commandId := by cases r <;> rfl
  rw [insertCommandLog, if_neg (hid ▸ hu), Db.withLog]

theorem execute_unseen (hu : Unseen db command) {r : Db × Except Reason (List String)}
    (hr : planAndAppend db o command.payload = r) (hlog : r.1.commandLog = db.commandLog) :
    execute db command o = (r.1.withLog (logRow command o r.2), .ok (outcomeOf r.2)) := by
  have hu' : Unseen r.1 command := by
    rw [Unseen, hlog]
    exact hu
  rw [execute, find?_eq_none_iff.mpr hu]
  simp only [hr]
  rw [insertCommandLog_unseen hu']

theorem execute_staged (hu : Unseen db command) (hs : stage db o command.payload = .ok es) :
    execute db command o
      = ((commitLoop db es).1.withLog (logRow command o (commitLoop db es).2),
          .ok (outcomeOf (commitLoop db es).2)) := by
  have hr : planAndAppend db o command.payload = commitLoop db es := by
    rw [planAndAppend, hs]
  refine execute_unseen hu hr ?_
  have hres : CommitResult db es (commitLoop db es) :=
    commitLoop_result (fun e he => ((stage_ok hs).1.core e he).verified)
  generalize commitLoop db es = r at hres
  cases hres with
  | done _ => rfl
  | stopped _ _ _ _ => rfl

/-- **Every call is one of these four.** -/
theorem execute_result (db : Db) (command : Command) (o : Oracle) :
    ExecuteResult db command o (execute db command o) := by
  cases hrow : db.commandLog.find? (fun r => r.commandId = command.commandId) with
  | some row =>
    rw [execute, hrow]
    exact .seen hrow
  | none =>
    have hu : Unseen db command := find?_eq_none_iff.mp hrow
    cases hs : stage db o command.payload with
    | error reason =>
      have hr : planAndAppend db o command.payload = (db, .error reason) := by
        rw [planAndAppend, hs]
      rw [execute_unseen hu hr rfl]
      exact .refused hu hs
    | ok es =>
      have hres : CommitResult db es (commitLoop db es) :=
        commitLoop_result (fun e he => ((stage_ok hs).1.core e he).verified)
      rw [execute_staged hu hs]
      generalize commitLoop db es = r at hres
      cases hres with
      | done hclean => exact .applied hu hs hclean
      | stopped k x hk hclean => exact .stopped hu hs hk hclean

abbrev Call := Command × Oracle

def executeCall (db : Db) (call : Call) : Db × Except StoreError Outcome :=
  execute db call.1 call.2

/-! ### Evaluating a call

The envelopes of a plan are sealed, so the loop without the integrity check does the
same; it can be evaluated without computing a hash. -/

def commitSealed (tx : Db) : List EventEnvelope → Db × Except Reason (List String)
  | [] => (tx, .ok [])
  | e :: es =>
    match insertEventRow tx e.commandRow with
    | .error x => (tx, .error (.sqlite x))
    | .ok inserted =>
      match projectInto inserted e with
      | .error x => (inserted, .error (.sqlite x))
      | .ok projected =>
        let rest := commitSealed projected es
        (rest.1, rest.2.map (fun ids => e.eventId :: ids))

theorem commitLoop_eq : ∀ {es : List EventEnvelope} {tx : Db},
    (∀ e ∈ es, e.verifyIntegrity = true) → commitLoop tx es = commitSealed tx es := by
  intro es
  induction es with
  | nil => intro tx _; rfl
  | cons e es ih =>
    intro tx hv
    have hrest : ∀ tx, commitLoop tx es = commitSealed tx es :=
      fun tx => ih (fun e' he' => hv e' (mem_cons_of_mem e he'))
    rw [commitLoop, commitSealed, if_neg (by simp [hv e mem_cons_self])]
    cases insertEventRow tx e.commandRow with
    | error x => rfl
    | ok inserted =>
      simp only
      cases projectInto inserted e with
      | error x => rfl
      | ok projected => simp only [hrest]

def planSealed (tx : Db) (o : Oracle) (payload : CommandPayload) :
    Db × Except Reason (List String) :=
  match stage tx o payload with
  | .error reason => (tx, .error reason)
  | .ok events => commitSealed tx events

theorem planAndAppend_eq : planAndAppend db o payload = planSealed db o payload := by
  rw [planAndAppend, planSealed]
  cases hs : stage db o payload with
  | error reason => rfl
  | ok es => exact commitLoop_eq (fun e he => ((stage_ok hs).1.core e he).verified)

def evalCall (db : Db) (call : Call) : Db × Except StoreError Outcome :=
  match db.commandLog.find? (fun r => r.commandId = call.1.commandId) with
  | some row => (db, .ok (recordedOutcome row))
  | none =>
    let r := planSealed db call.2 call.1.payload
    match insertCommandLog r.1 (logRow call.1 call.2 r.2) with
    | .error x => (db, .error (.sqlite x))
    | .ok tx => (tx, .ok (outcomeOf r.2))

theorem executeCall_eq : executeCall = evalCall := by
  funext db call
  rw [executeCall, execute, planAndAppend_eq]
  rfl

theorem execute_eq_evalCall (db : Db) (command : Command) (o : Oracle) :
    execute db command o = evalCall db (command, o) :=
  congrFun (congrFun executeCall_eq db) (command, o)

/-- The `n`-th call's draws, all identities distinct. -/
def sampleOracle (n : Nat) : Oracle :=
  ⟨.ofNat (3 * n), ⟨.ofNat (3 * n + 1), "2026-01-01T00:00:00.000Z"⟩,
    ⟨.ofNat (3 * n + 2), "2026-01-01T00:00:00.000Z"⟩, "2026-01-01T00:00:00.000Z"⟩

def sampleCalls (payloads : List CommandPayload) : List Call :=
  payloads.zipIdx.map (fun p => (⟨toString p.2, ⟨.user, "u"⟩, p.1⟩, sampleOracle p.2))

end Modbit
