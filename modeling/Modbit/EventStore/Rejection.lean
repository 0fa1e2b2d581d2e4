import Modbit.EventStore.Streams

/-!
# What a rejected command leaves behind

`execute` commits its transaction also when the command is rejected.  Most rejections are decided
before anything is inserted, but an envelope is inserted before it is projected, so an event whose
projection fails stays in the log.

`Stranded` names the commands this happens to: a task under a session that has events but no row in
`sessions`, and an input whose id is taken or whose task has no row in `tasks`.
`rejectedLeavesStore_iff`: with fresh identities a rejection leaves any reachable store as it was
exactly when the command is not stranded.
-/

namespace Modbit

open Lib List

/-- A rejection changes nothing but the command log, by one row at most. -/
def RejectedLeavesStore (db : Db) (command : Command) (o : Oracle) : Prop :=
  ∀ reason, (execute db command o).2 = .ok (.rejected reason) →
    (execute db command o).1.events = db.events ∧
      (execute db command o).1.projections = db.projections ∧
      ((execute db command o).1.commandLog = db.commandLog ∨
        ∃ row : CommandLogRow, row.status = "REJECTED" ∧
          (execute db command o).1.commandLog = db.commandLog ++ [row])

/-- The identities a call draws are new, as those of `Uuid::now_v7` are. -/
structure Fresh (db : Db) (o : Oracle) : Prop where
  aggregate : o.aggregate.toText ∉ db.events.map EventRow.aggregateId
  first : o.first.eventId.toText ∉ db.events.map EventRow.eventId
  second : o.second.eventId.toText ∉ db.events.map EventRow.eventId
  distinct : o.first.eventId ≠ o.second.eventId

instance {db : Db} {o : Oracle} : Decidable (Fresh db o) :=
  decidable_of_iff (o.aggregate.toText ∉ db.events.map EventRow.aggregateId ∧
    o.first.eventId.toText ∉ db.events.map EventRow.eventId ∧
    o.second.eventId.toText ∉ db.events.map EventRow.eventId ∧ o.first.eventId ≠ o.second.eventId)
    ⟨fun h => ⟨h.1, h.2.1, h.2.2.1, h.2.2.2⟩,
      fun h => ⟨h.aggregate, h.first, h.second, h.distinct⟩⟩

/-- The input goes through the state machine and the input policy. -/
def InputAccepted (db : Db) (taskId : TaskId) (mode : InputMode) : Prop :=
  ∃ history state effect, loadTaskEvents db taskId = .ok history ∧
    foldTask history = some (.ok state) ∧ inputEffect state mode = .ok effect

/-- The payloads whose first event is inserted and then not projected. -/
def StrandedPayload (db : Db) : CommandPayload → Prop
  | .createTask sessionId _ _ _ _ _ =>
    0 < countEvents db sessionId.toText ∧ sessionId.toText ∉ db.projections.sessionIds
  | .queueTaskInput taskId inputId mode _ =>
    InputAccepted db taskId mode ∧
      (inputId ∈ db.projections.inputIds ∨ taskId.toText ∉ db.projections.taskIds)
  | _ => False

/-- A command not seen before with such a payload. -/
def Stranded (db : Db) (command : Command) : Prop :=
  Unseen db command ∧ StrandedPayload db command.payload

variable {db tx : Db} {o : Oracle} {command : Command} {payload : CommandPayload}
  {es : List EventEnvelope}

/-! ### The loop with new event ids -/

theorem commitLoop_clean : ∀ {es : List EventEnvelope} {tx : Db},
    (∀ e ∈ es, e.verifyIntegrity = true) → GaplessLog tx.events →
    Continues EventRow.aggregateId EventRow.sequence tx.events
      (es.map EventEnvelope.commandRow) →
    (es.map EventEnvelope.eventId).Nodup →
    (∀ e ∈ es, e.eventId ∉ tx.events.map EventRow.eventId) →
    Clean project tx.projections es →
      (commitLoop tx es).2 = .ok (es.map EventEnvelope.eventId) := by
  intro es
  induction es with
  | nil => intro tx _ _ _ _ _ _; rfl
  | cons e es ih =>
    intro tx hv hg hc hnodup hnew hclean
    obtain ⟨hseq, hrest⟩ := hc
    obtain ⟨⟨p, hp⟩, hclean'⟩ := hclean
    rw [applyOrKeep_ok hp] at hclean'
    have hins : insertEventRow tx e.commandRow
        = .ok { tx with events := tx.events ++ [e.commandRow] } :=
      insertEventRow_next hg (hnew e mem_cons_self) hseq
    have hg' : GaplessLog (tx.extend e.commandRow p).events := hg.concat hseq
    have hnew' : ∀ e' ∈ es,
        e'.eventId ∉ (tx.extend e.commandRow p).events.map EventRow.eventId := by
      intro e' he' hmem
      have hmem' : e'.eventId ∈ (tx.events ++ [e.commandRow]).map EventRow.eventId := hmem
      rw [map_append, mem_append] at hmem'
      rcases hmem' with hmem' | hmem'
      · exact hnew e' (mem_cons_of_mem e he') hmem'
      · have heq : e'.eventId = e.eventId := mem_singleton.mp hmem'
        rw [map_cons, nodup_cons] at hnodup
        exact hnodup.1 (heq ▸ mem_map_of_mem he')
    have hloop := ih (fun e' he' => hv e' (mem_cons_of_mem e he')) hg' hrest
      (nodup_cons.mp hnodup).2 hnew' hclean'
    rw [commitLoop, if_neg (by simp [hv e mem_cons_self]), hins]
    simp only [projectInto_inserted, hp, Except.map, hloop, map_cons]

variable {e : EventEnvelope}

theorem commitLoop_strands (hv : e.verifyIntegrity = true)
    (hins : insertEventRow tx e.commandRow = .ok { tx with events := tx.events ++ [e.commandRow] })
    (hp : ¬ Projectable tx.projections e) :
    (commitLoop tx (e :: es)).1.events = tx.events ++ [e.commandRow] ∧
      ∃ x, (commitLoop tx (e :: es)).2 = .error x := by
  obtain ⟨x, hx⟩ := project_error hp
  rw [commitLoop, if_neg (by simp [hv]), hins]
  simp only [projectInto_inserted, hx, Except.map]
  exact ⟨trivial, _, rfl⟩

/-! ### The ids of a plan -/

theorem Staged.eventIds (h : Staged tx o payload es) :
    es.map EventEnvelope.eventId <+: [o.first.eventId.toText, o.second.eventId.toText] := by
  cases h with
  | input _ _ _ _ =>
    rw [inputEnvelopes]
    split
    · exact prefix_refl _
    · exact ⟨[o.second.eventId.toText], rfl⟩
  | session _ | task _ | question _ | goal _ _ | fork _ | rewind _ _ _ | lifecycle _ _ _ _ _ _ =>
    exact ⟨[o.second.eventId.toText], rfl⟩

theorem Staged.nodup (h : Staged tx o payload es) (hf : Fresh tx o) :
    (es.map EventEnvelope.eventId).Nodup := by
  refine h.eventIds.sublist.nodup ?_
  have hne : o.first.eventId.toText ≠ o.second.eventId.toText :=
    fun he => hf.distinct (Uuid.toText_inj he)
  simp [hne]

theorem Staged.new (h : Staged tx o payload es) (hf : Fresh tx o) :
    ∀ e ∈ es, e.eventId ∉ tx.events.map EventRow.eventId := by
  intro e he
  have hmem := h.eventIds.subset (mem_map_of_mem he)
  rcases mem_pair.mp hmem with hid | hid
  · rw [hid]
    exact hf.first
  · rw [hid]
    exact hf.second

/-! ### When a plan goes through -/

theorem execute_applied (hg : GaplessLog db.events) (hf : Fresh db o) (hu : Unseen db command)
    (hs : stage db o command.payload = .ok es) (hclean : Clean project db.projections es) :
    (execute db command o).2 = .ok (.applied (es.map EventEnvelope.eventId)) := by
  have hst := (stage_ok hs).1
  have hv : ∀ e ∈ es, e.verifyIntegrity = true := fun e he => (hst.core e he).verified
  have hloop := commitLoop_clean hv hg (stage_continues hg hs) (hst.nodup hf) (hst.new hf) hclean
  rw [execute_staged hu hs, hloop]
  rfl

theorem execute_commit (hg : GaplessLog db.events) (hf : Fresh db o) (hu : Unseen db command)
    (hs : stage db o command.payload = .ok es) (hclean : Clean project db.projections es) :
    execute db command o
      = ((db.commit es).withLog (logRow command o (.ok (es.map EventEnvelope.eventId))),
          .ok (.applied (es.map EventEnvelope.eventId))) := by
  have happlied := execute_applied hg hf hu hs hclean
  have hres := execute_result db command o
  generalize execute db command o = r at hres happlied
  cases hres with
  | seen hrow =>
    rw [find?_eq_none_iff.mpr hu] at hrow
    cases hrow
  | refused _ _ => cases happlied
  | applied _ hs' _ =>
    rw [hs] at hs'
    rw [← Except.ok.inj hs']
  | stopped _ _ _ _ => cases happlied

variable {p : Projections}

theorem clean_singleton (h : Projectable p e) :
    Clean project p [e] := ⟨project_ok_iff.mpr h, trivial⟩

theorem clean_pair {e e' : EventEnvelope} (h : Projectable p e)
    (h' : ∀ q, Projectable q e') : Clean project p [e, e'] :=
  ⟨project_ok_iff.mpr h, clean_singleton (h' _)⟩

theorem projectable_lifecycle {event : DomainEvent} (h : lifecycleEvent payload = some event)
    (p : Projections) (stamp : Stamp) (taskId : TaskId) (sessionId : SessionId) (n : Nat) :
    Projectable p (taskEnvelope stamp taskId sessionId event n) := by
  cases payload <;> cases h <;> exact trivial

variable {taskId : TaskId} {n : Nat}

theorem projectable_task {stamp : Stamp}
    {sessionId s : SessionId} {title prompt : String} {repo base parent : Option String} :
    Projectable p (taskEnvelope stamp taskId sessionId
        (.taskCreated s title prompt repo base parent) n) ↔
      taskId.toText ∉ p.taskIds ∧ sessionId.toText ∈ p.sessionIds := Iff.rfl

variable {sessionId : SessionId} {inputId text : String} {mode : InputMode}

theorem projectable_input {stamp : Stamp} :
    Projectable p (taskEnvelope stamp taskId sessionId (.taskInputQueued inputId mode text) n) ↔
      inputId ∉ p.inputIds ∧ (taskId.toText, n) ∉ p.taskInputs.map (fun r => (r.taskId, r.sequence))
        ∧ taskId.toText ∈ p.taskIds := Iff.rfl

theorem inputKey_new (hg : GaplessLog db.events) (hk : KeysLogged db.events db.projections)
    {id : String} (hn : n = nextSequence db id) :
    (id, n) ∉ db.projections.taskInputs.map (fun r => (r.taskId, r.sequence)) := by
  intro hmem
  obtain ⟨r, hr, heq⟩ := mem_map.mp hmem
  have hlog := hk.inputs r hr
  rw [heq] at hlog
  obtain ⟨row, hrow, hkey⟩ := mem_map.mp hlog
  obtain ⟨hid, hseq⟩ := Prod.mk.inj hkey
  exact hg.seq_ne_nextSeq hrow hid (hseq.trans hn)

/-- **A plan that is not stranded is projected without a refusal.** -/
theorem clean_of_not_stranded (hg : GaplessLog db.events)
    (hk : KeysLogged db.events db.projections) (hf : Fresh db o)
    (hs : stage db o payload = .ok es) (hn : ¬ StrandedPayload db payload) :
    Clean project db.projections es := by
  have hst := (stage_ok hs).1
  have hcont := stage_continues hg hs
  cases hst with
  | session name =>
    refine clean_singleton ?_
    exact fun hmem => hf.aggregate (hk.sessions _ hmem)
  | @task sessionId _ _ _ _ _ hcount =>
    refine clean_singleton (projectable_task.mpr ⟨fun hmem => hf.aggregate (hk.tasks _ hmem), ?_⟩)
    by_contra hmem
    exact hn ⟨hcount, hmem⟩
  | @input taskId sessionId inputId text mode history state effect hh hfold he hsess =>
    have hacc : InputAccepted db taskId mode := ⟨history, state, effect, hh, hfold, he⟩
    have hok : inputId ∉ db.projections.inputIds ∧ taskId.toText ∈ db.projections.taskIds := by
      refine ⟨fun hmem => hn ⟨hacc, Or.inl hmem⟩, ?_⟩
      by_contra hmem
      exact hn ⟨hacc, Or.inr hmem⟩
    have hseq : history.length + 1 = nextSequence db taskId.toText := by
      rw [inputEnvelopes] at hcont
      split at hcont
      · exact hcont.1
      · exact hcont.1
    have hfirst : Projectable db.projections
        (taskEnvelope o.first taskId sessionId (.taskInputQueued inputId mode text)
          (history.length + 1)) := projectable_input.mpr ⟨hok.1, inputKey_new hg hk hseq, hok.2⟩
    rw [inputEnvelopes]
    split
    · exact clean_pair hfirst (fun _ => trivial)
    · exact clean_singleton hfirst
  | lifecycle _ hl _ _ _ _ => exact clean_singleton (projectable_lifecycle hl _ _ _ _ _)
  | question _ | goal _ _ | fork _ | rewind _ _ _ => exact clean_singleton trivial

/-! ### When a plan is stranded -/

theorem nextSequence_new {id : String} (h : id ∉ db.events.map EventRow.aggregateId) :
    nextSequence db id = 1 := by
  have hnil : stream EventRow.aggregateId id db.events = [] := by
    rw [stream, filter_eq_nil_iff]
    intro r hr
    simpa using fun he : r.aggregateId = id => h (he ▸ mem_map_of_mem hr)
  rw [nextSequence, nextSeq, hnil]
  rfl

theorem continuity_cons {map : List (String × Nat)}
    (h : e.sequence = (map.lookup e.aggregateId).getD (nextSequence tx e.aggregateId)) :
    continuity tx map (e :: es) = continuity tx ((e.aggregateId, e.sequence + 1) :: map) es := by
  rw [continuity]
  have hpass : ∀ x : Reason, refuseIf (e.sequence
      ≠ (map.lookup e.aggregateId).getD (nextSequence tx e.aggregateId)) x = .ok () :=
    fun x => refuseIf_eq_ok.mpr (not_not.mpr h)
  simp only [hpass, ok_bind]

theorem continuity_inputEnvelopes {effect : InputEffect}
    (h : n + 1 = nextSequence tx taskId.toText) :
    continuity tx [] (inputEnvelopes o taskId sessionId inputId mode text effect n) = .ok () := by
  rw [inputEnvelopes]
  split
  · rw [continuity_cons h, continuity_cons (by simp), continuity]
  · rw [continuity_cons h, continuity]

theorem currentState_eq {history : List DomainEvent} {state : TaskState}
    (h : foldTask history = some (.ok state)) : currentState taskId history = .ok state := by
  rw [currentState, h]
  rfl

variable {log : List EventEnvelope}

theorem stage_input (hr : Records db log) (h : InputAccepted db taskId mode) :
    ∃ sessionId effect n, stage db o (.queueTaskInput taskId inputId mode text)
      = .ok (inputEnvelopes o taskId sessionId inputId mode text effect n) := by
  obtain ⟨history, state, effect, hload, hfold, he⟩ := h
  have hhist := hr.history_eq hload
  have hlen : history.length + 1 = nextSequence db taskId.toText := by
    rw [nextSequence_eq hr, hhist, length_map]
  have hsess : ∃ sessionId, taskSession db taskId = .ok sessionId := by
    obtain ⟨_, _, _, _, _, _, rest, hcons⟩ := head_of_foldTask hfold
    cases hstream : envelopesOf taskId.toText log with
    | nil =>
      rw [hhist, hstream] at hcons
      cases hcons
    | cons e rest => exact ⟨_, taskSession_eq hr hstream⟩
  obtain ⟨sessionId, hsess⟩ := hsess
  have hplan : plan db o (.queueTaskInput taskId inputId mode text)
      = .ok (inputEnvelopes o taskId sessionId inputId mode text effect history.length) := by
    rw [plan, hload]
    simp only [ok_bind, currentState_eq hfold, he, Except.mapError, hsess, pure_eq_ok]
    rfl
  refine ⟨sessionId, effect, history.length, ?_⟩
  rw [stage, hplan]
  simp only [ok_bind, continuity_inputEnvelopes hlen, pure_eq_ok]

theorem stage_createTask (hf : Fresh db o) {title prompt : String}
    {repo base parent : Option String} (hcount : 0 < countEvents db sessionId.toText) :
    stage db o (.createTask sessionId title prompt repo base parent)
      = .ok [taskEnvelope o.first ⟨o.aggregate⟩ sessionId
          (.taskCreated sessionId title prompt repo base parent) 1] := by
  have hexists : refuseIf (sessionExists db sessionId = false) (noSession sessionId) = .ok () :=
    refuseIf_eq_ok.mpr (by simpa [sessionExists, Nat.pos_iff_ne_zero] using hcount)
  rw [stage, plan, hexists]
  simp only [ok_bind, pure_eq_ok]
  rw [continuity_cons (nextSequence_new hf.aggregate).symm, continuity]
  rfl

/-- **A stranded payload is planned, and its first event does not go through.** -/
theorem stage_of_stranded (hr : Records db log) (hf : Fresh db o) (h : StrandedPayload db payload) :
    ∃ e rest, stage db o payload = .ok (e :: rest) ∧ ¬ Projectable db.projections e := by
  cases payload
  case createTask sessionId title prompt repo base parent =>
    obtain ⟨hcount, hmiss⟩ := h
    refine ⟨taskEnvelope o.first ⟨o.aggregate⟩ sessionId
      (.taskCreated sessionId title prompt repo base parent) 1, [], ?_,
      fun hp => hmiss (projectable_task.mp hp).2⟩
    exact stage_createTask hf hcount
  case queueTaskInput taskId inputId mode text =>
    obtain ⟨haccepted, hmiss⟩ := h
    obtain ⟨sessionId, effect, n, hstage⟩ := stage_input hr haccepted
    have hnot : ¬ Projectable db.projections (taskEnvelope o.first taskId sessionId
        (.taskInputQueued inputId mode text) (n + 1)) := by
      intro hp
      obtain ⟨hid, _, htask⟩ := projectable_input.mp hp
      rcases hmiss with hmiss | hmiss
      · exact hid hmiss
      · exact hmiss htask
    rw [hstage, inputEnvelopes]
    split
    · exact ⟨_, _, rfl, hnot⟩
    · exact ⟨_, _, rfl, hnot⟩
  all_goals exact absurd h id

theorem execute_stranded (hr : Records db log) (hf : Fresh db o) (h : Stranded db command) :
    (∃ x, (execute db command o).2 = .ok (.rejected x)) ∧
      (execute db command o).1.events ≠ db.events := by
  obtain ⟨hu, hp⟩ := h
  obtain ⟨e, rest, hs, hnot⟩ := stage_of_stranded hr hf hp
  have hst := (stage_ok hs).1
  have hv : ∀ e' ∈ e :: rest, e'.verifyIntegrity = true := fun e' he' => (hst.core e' he').verified
  have hins : insertEventRow db e.commandRow
      = .ok { db with events := db.events ++ [e.commandRow] } :=
    insertEventRow_next hr.gapless (hst.new hf e mem_cons_self)
      (stage_continues hr.gapless hs).1
  obtain ⟨hev, x, hx⟩ :
      (commitLoop db (e :: rest)).1.events = db.events ++ [e.commandRow] ∧
        ∃ x, (commitLoop db (e :: rest)).2 = .error x :=
    commitLoop_strands (hv e mem_cons_self) hins hnot
  rw [execute_staged hu hs]
  generalize commitLoop db (e :: rest) = r at hev hx
  obtain ⟨tx', res⟩ := r
  simp only at hev hx
  subst hx
  refine ⟨⟨x, rfl⟩, fun hsame => ?_⟩
  have hsame' : tx'.events = db.events := hsame
  rw [hev] at hsame'
  simp at hsame'

/-- **Exactly the stranded commands leave an event behind.**  For every store
reached by commands and every command, with fresh identities, a rejection leaves
events and projections as they were if and only if the command is not stranded. -/
theorem rejectedLeavesStore_iff (calls : List Call) (command : Command) (o : Oracle)
    (hf : Fresh (Db.afterCalls calls) o) :
    RejectedLeavesStore (Db.afterCalls calls) command o ↔
      ¬ Stranded (Db.afterCalls calls) command := by
  have hr := records_afterCalls calls
  have hk : KeysLogged (Db.afterCalls calls).events (Db.afterCalls calls).projections := by
    rw [afterCalls_eq]
    exact after_keysLogged _
  constructor
  · intro hleaves hstr
    obtain ⟨⟨x, hx⟩, hne⟩ := execute_stranded hr hf hstr
    exact hne (hleaves x hx).1
  · intro hstr reason hrej
    have hwhole : ∀ es, Unseen (Db.afterCalls calls) command →
        stage (Db.afterCalls calls) o command.payload = .ok es → False := by
      intro es hu hs
      have hclean := clean_of_not_stranded hr.gapless hk hf hs (fun hp => hstr ⟨hu, hp⟩)
      rw [execute_applied hr.gapless hf hu hs hclean] at hrej
      cases hrej
    have hres := execute_result (Db.afterCalls calls) command o
    generalize execute (Db.afterCalls calls) command o = r at hres
    cases hres with
    | seen _ => exact ⟨rfl, rfl, Or.inl rfl⟩
    | refused _ _ => exact ⟨rfl, rfl, Or.inr ⟨_, rfl, rfl⟩⟩
    | applied hu hs _ => exact absurd hs (hwhole _ hu)
    | stopped hu hs _ _ => exact absurd hs (hwhole _ hu)

/-! ### A task under a forked session -/

/-- A session and a fork of it: a fork has no row in `sessions`. -/
def forkSetup : List Call :=
  sampleCalls [.createSession "s", .forkSession ⟨.ofNat 0⟩ 1 [] []]

def taskUnderFork : Command :=
  ⟨"task", ⟨.user, "u"⟩, .createTask ⟨.ofNat 3⟩ "title" "prompt" none none none⟩

theorem fresh_forkSetup : Fresh (Db.afterCalls forkSetup) (sampleOracle 2) := by
  rw [afterCalls_eval]
  exact ⟨by decide +kernel, by decide +kernel, by decide +kernel, by decide +kernel⟩

theorem rejectedLeavesStore_iff_forked :
    Fresh (Db.afterCalls forkSetup) (sampleOracle 2) ∧
      (RejectedLeavesStore (Db.afterCalls forkSetup) taskUnderFork (sampleOracle 2) ↔
        ¬ Stranded (Db.afterCalls forkSetup) taskUnderFork) :=
  ⟨fresh_forkSetup, rejectedLeavesStore_iff _ _ _ fresh_forkSetup⟩

/-- The task is rejected by the foreign key, and its event is in the log. -/
theorem task_under_fork_stays :
    ¬ RejectedLeavesStore (Db.afterCalls forkSetup) taskUnderFork (sampleOracle 2) := by
  intro h
  have hlen : (execute (Db.afterCalls forkSetup) taskUnderFork (sampleOracle 2)).1.events.length
      ≠ (Db.afterCalls forkSetup).events.length := by
    rw [execute_eq_evalCall, afterCalls_eval]
    decide +kernel
  refine hlen (congrArg List.length (h (.sqlite .foreignKey) ?_).1)
  rw [execute_eq_evalCall, afterCalls_eval]
  decide +kernel

end Modbit
