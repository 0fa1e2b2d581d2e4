import Modbit.Agent.Scheduler

/-!
# What the scheduler reads, over later writes

The scheduler looks at the log twice: it folds the events of a task, and it looks for a
run that names the task.  Between the look and what follows from it other calls write.

`stateOf_extended` says which writes leave the state of a task as it was, and
`taskHasRun_extended` that a run once found is found again.  `taskHasRun_start` says when
the start of an attempt leaves such a run behind, and `stateOf_failed` what failing a task
comes to.  All of them ask for payloads that can be read back (`Faithful`): one that
cannot makes its whole stream unreadable.
-/

namespace Modbit

open Lib List

variable {db db' : Db} {ws : List EventEnvelope} {taskId : TaskId}

/-- What a call on the store writes can be read back. -/
def FaithfulOp (db : Db) (op : Op) : Prop := ∀ e ∈ accepted db op, e.payload.Faithful

theorem faithfulOp_execute (db : Db) (command : Command) (o : Oracle) :
    FaithfulOp db (.execute command o) := fun _ he => (acceptedPlan_core he).faithful

instance (op : Op) : Decidable (FaithfulOp db op) :=
  match op with
  | .execute command o => .isTrue (faithfulOp_execute db command o)
  | .append _ | .appendWithLease _ _ _ | .acquireLease _ _ _ _ | .acquireScope _ _ _
  | .releaseScope _ => inferInstanceAs (Decidable (∀ e ∈ _, _))

/-! ### Streams grow at their end -/

theorem selectAggregate_extended (hg : GaplessLog db.events) (hx : Extended db ws db')
    (aggregateId : String) :
    selectAggregate db' aggregateId = selectAggregate db aggregateId
      ++ (envelopesOf aggregateId ws).map EventEnvelope.storedRow := by
  rw [selectAggregate, selectAggregate, hx.gapless.inOrder_eq, hg.inOrder_eq, hx.events,
    stream_append, ← streamOf_map]

theorem selectAggregate_new (hg : GaplessLog db.events) {id : String}
    (h : id ∉ db.events.map EventRow.aggregateId) : selectAggregate db id = [] := by
  rw [selectAggregate, hg.inOrder_eq, stream, filter_eq_nil_iff]
  intro r hr
  simpa using fun hid : r.aggregateId = id => h (hid ▸ mem_map_of_mem hr)

variable {history : List DomainEvent}

theorem loadTaskEvents_extended (hg : GaplessLog db.events)
    (hx : Extended db ws db') (hf : ∀ e ∈ ws, e.payload.Faithful)
    (h : loadTaskEvents db taskId = .ok history) :
    loadTaskEvents db' taskId
      = .ok (history ++ (envelopesOf taskId.toText ws).map EventEnvelope.payload) := by
  have hnew : ((envelopesOf taskId.toText ws).map EventEnvelope.storedRow).mapM
      (fun r => okOr (DomainEvent.fromJson r.payloadInline) Reason.serde)
      = .ok ((envelopesOf taskId.toText ws).map EventEnvelope.payload) := by
    rw [mapM_map]
    refine mapM_eq_map.mpr (fun e he => okOr_eq_ok.mpr ?_)
    exact DomainEvent.fromJson_toJson e.payload (hf e (mem_stream.mp he).1)
  rw [loadTaskEvents, selectAggregate_extended hg hx]
  exact mapM_append_ok h hnew

/-! ### The state of a task -/

variable {state : TaskState}

theorem foldTask_keeps (h : foldTask history = some (.ok state)) : ∀ {more : List DomainEvent},
    (∀ p ∈ more, applyTaskEvent state p = .ok state) →
      foldTask (history ++ more) = some (.ok state) := by
  intro more
  induction more generalizing history with
  | nil =>
    intro _
    rwa [append_nil]
  | cons p more ih =>
    intro hkeep
    have hnext := foldTask_concat h (hkeep p mem_cons_self)
    rw [← singleton_append, ← append_assoc]
    exact ih hnext (fun q hq => hkeep q (mem_cons_of_mem p hq))

theorem stateOf_eq_some (h : stateOf db taskId = some state) :
    ∃ history, loadTaskEvents db taskId = .ok history ∧ foldTask history = some (.ok state) := by
  rw [stateOf] at h
  cases hload : loadTaskEvents db taskId with
  | error x =>
    rw [hload] at h
    cases h
  | ok history =>
    rw [hload] at h
    refine ⟨history, rfl, ?_⟩
    cases hf : foldTask history with
    | none =>
      simp only [hf] at h
      cases h
    | some folded =>
      cases folded with
      | error x =>
        simp only [hf] at h
        cases h
      | ok state' =>
        simp only [hf] at h
        rw [Option.some.inj h]

/-- The envelopes leave a task in the given state where it is. -/
def Keeps (taskId : TaskId) (state : TaskState) (ws : List EventEnvelope) : Prop :=
  ∀ e ∈ ws, e.aggregateId = taskId.toText → applyTaskEvent state e.payload = .ok state

instance (state : TaskState) : Decidable (Keeps taskId state ws) :=
  inferInstanceAs (Decidable (∀ e ∈ ws, _))

/-- **A task stays in its state** under writes that leave it there. -/
theorem stateOf_extended (hg : GaplessLog db.events)
    (hx : Extended db ws db') (hf : ∀ e ∈ ws, e.payload.Faithful) (hk : Keeps taskId state ws)
    (h : stateOf db taskId = some state) : stateOf db' taskId = some state := by
  obtain ⟨history, hload, hfold⟩ := stateOf_eq_some h
  refine stateOf_eq (loadTaskEvents_extended hg hx hf hload) (foldTask_keeps hfold ?_)
  intro p hp
  obtain ⟨e, he, rfl⟩ := mem_map.mp hp
  exact hk e (mem_stream.mp he).1 (mem_stream.mp he).2

theorem logged_of_stateOf (hg : GaplessLog db.events)
    (h : stateOf db taskId = some state) : ∃ r ∈ db.events, r.aggregateId = taskId.toText := by
  obtain ⟨history, hload, hfold⟩ := stateOf_eq_some h
  cases hrows : selectAggregate db taskId.toText with
  | nil =>
    rw [loadTaskEvents, hrows] at hload
    obtain rfl : [] = history := Except.ok.inj hload
    cases hfold
  | cons r rest =>
    have hmem : r ∈ selectAggregate db taskId.toText := by
      rw [hrows]
      exact mem_cons_self
    rw [selectAggregate, hg.inOrder_eq] at hmem
    exact ⟨r, (mem_stream.mp hmem).1, (mem_stream.mp hmem).2⟩

/-! ### The runs of a task -/

theorem taskHasRun_iff : taskHasRun db taskId = true ↔
    ∃ r ∈ db.events, (r.aggregateType = "run" ∧ r.sequence = 1) ∧
      ∃ e rest, load db r.aggregateId = .ok (e :: rest) ∧ startsRun taskId e.payload = true := by
  rw [taskHasRun, any_eq_true]
  constructor
  · rintro ⟨r, hr, h⟩
    obtain ⟨hmem, hrow⟩ := mem_filter.mp hr
    refine ⟨r, hmem, by simpa using hrow, ?_⟩
    split at h
    · next e rest hload => exact ⟨e, rest, hload, h⟩
    · cases h
  · rintro ⟨r, hmem, hrow, e, rest, hload, h⟩
    refine ⟨r, mem_filter.mpr ⟨hmem, by simpa using hrow⟩, ?_⟩
    rw [hload]
    exact h

variable {e : EventEnvelope}

theorem parse_of_reconstruct {r : EventRow} (ht : r.aggregateType = "run")
    (h : reconstructEnvelope r = .ok e) : ∃ u, Uuid.parseStr r.aggregateId = some u := by
  rw [reconstructEnvelope] at h
  obtain ⟨kind, hkind, h⟩ := bind_eq_ok.mp h
  obtain ⟨ids, hids, _⟩ := bind_eq_ok.mp h
  have hrun : kind = .run := by
    have := okOr_eq_ok.mp hkind
    rw [ht] at this
    exact (Option.some.inj this).symm
  subst hrun
  obtain ⟨runId, hparse, _⟩ := bind_eq_ok.mp hids
  obtain ⟨u, hu, _⟩ := Option.map_eq_some_iff.mp (okOr_eq_ok.mp hparse)
  exact ⟨u, hu⟩

theorem aggregateIds_ok {id : String} {u : Uuid} (h : Uuid.parseStr id = some u)
    (kind : AggregateType) : ∃ ids, aggregateIds kind id = .ok ids := by
  cases kind <;> simp [aggregateIds, Id.parse, h]

theorem reconstruct_stored {u : Uuid} (hf : e.payload.Faithful)
    (hu : Uuid.parseStr e.aggregateId = some u) :
    ∃ e', reconstructEnvelope e.storedRow = .ok e' := by
  obtain ⟨ids, hids⟩ := aggregateIds_ok hu e.aggregateType
  rw [reconstructEnvelope_storedRow hf, hids]
  exact ⟨_, rfl⟩

/-- **A run once found is found again.** -/
theorem taskHasRun_extended (hg : GaplessLog db.events) (hx : Extended db ws db')
    (hf : ∀ e ∈ ws, e.payload.Faithful) (h : taskHasRun db taskId = true) :
    taskHasRun db' taskId = true := by
  obtain ⟨r, hr, hrow, e, rest, hload, hstart⟩ := taskHasRun_iff.mp h
  have hmem : r ∈ selectAggregate db r.aggregateId := by
    rw [selectAggregate, hg.inOrder_eq]
    exact mem_stream.mpr ⟨hr, rfl⟩
  obtain ⟨_, hread⟩ := mapM_ok_iff.mp ⟨_, hload⟩ r hmem
  obtain ⟨u, hu⟩ := parse_of_reconstruct hrow.1 hread
  obtain ⟨more, hmore⟩ : ∃ more, ((envelopesOf r.aggregateId ws).map EventEnvelope.storedRow).mapM
      reconstructEnvelope = .ok more := by
    refine mapM_ok_iff.mpr (fun row hrow => ?_)
    obtain ⟨e', he', rfl⟩ := mem_map.mp hrow
    obtain ⟨he', hid⟩ := mem_stream.mp he'
    exact reconstruct_stored (hf e' he') (hid ▸ hu)
  refine taskHasRun_iff.mpr ⟨r, ?_, hrow, e, rest ++ more, ?_, hstart⟩
  · rw [hx.events]
    exact mem_append_left _ hr
  · rw [load, selectAggregate_extended hg hx]
    exact mapM_append_ok hload hmore

/-! ### The session of a task -/

theorem map_payload_load {bs : List EventEnvelope}
    (h : load db taskId.toText = .ok bs) (hh : loadTaskEvents db taskId = .ok history) :
    bs.map EventEnvelope.payload = history := by
  have hread : ∀ {r : EventRow} {e : EventEnvelope}, reconstructEnvelope r = .ok e →
      some e.payload = DomainEvent.fromJson r.payloadInline := by
    intro r e he
    simp only [reconstructEnvelope, bind_eq_ok] at he
    obtain ⟨_, _, _, _, _, _, payload, hp, _, _, _, _, _, _, _, _, he⟩ := he
    rw [← Except.ok.inj he, okOr_eq_ok.mp hp]
  have hone : ∀ {r : EventRow} {p : DomainEvent},
      okOr (DomainEvent.fromJson r.payloadInline) Reason.serde = .ok p →
      some p = DomainEvent.fromJson r.payloadInline := fun hp => (okOr_eq_ok.mp hp).symm
  have hbs := mapM_attribute hread h
  have hhist := mapM_attribute hone hh
  have hsame : (bs.map EventEnvelope.payload).map some = history.map some := by
    rw [map_map]
    exact hbs.trans hhist.symm
  exact map_injective_iff.mpr (Option.some_injective _) hsame

theorem readTaskBrief_ok {es : List EventEnvelope}
    (hev : db.events = es.map EventEnvelope.storedRow) (hg : GaplessLog db.events)
    (h : stateOf db taskId = some state) : ∃ sessionId, readTaskBrief db taskId = .ok sessionId := by
  obtain ⟨history, hload, hfold⟩ := stateOf_eq_some h
  have hrows := selectAggregate_stored hg hev taskId.toText
  obtain ⟨bs, hbs⟩ : ∃ bs, load db taskId.toText = .ok bs := by
    refine mapM_ok_iff.mpr (fun r hr => ?_)
    obtain ⟨p, hp⟩ := mapM_ok_iff.mp ⟨_, hload⟩ r hr
    rw [hrows] at hr
    obtain ⟨e, he, rfl⟩ := mem_map.mp hr
    have hparse : Uuid.parseStr e.aggregateId = some taskId.uuid := by
      rw [(mem_stream.mp he).2]
      exact Uuid.parseStr_toText taskId.uuid
    exact reconstruct_stored (DomainEvent.faithful_of_fromJson (okOr_eq_ok.mp hp)) hparse
  obtain ⟨sessionId, _, _, _, _, _, rest, hcons⟩ := head_of_foldTask hfold
  have hpay := map_payload_load hbs hload
  rw [hcons] at hpay
  cases bs with
  | nil => cases hpay
  | cons e bs =>
    obtain ⟨he, _⟩ := List.cons.inj hpay
    refine ⟨sessionId, ?_⟩
    rw [readTaskBrief, hbs]
    simp only [findSome?_cons, he, okOr_some]

/-! ### The start of an attempt -/

variable {c : RunCall} {lease : Option String} {runId : RunId} {stamp : Stamp}

/-- The start of the attempt goes into the log: the lease still holds, and the two identities
drawn for it are new. -/
def Recordable (db : Db) (c : RunCall) (lease : Option String) (runId : RunId) (stamp : Stamp) :
    Prop :=
  lease.all (Leases.isCurrent db c.sessionId.toText) = true ∧
    stamp.eventId.toText ∉ db.events.map EventRow.eventId ∧
      runId.toText ∉ db.events.map EventRow.aggregateId

instance : Decidable (Recordable db c lease runId stamp) := inferInstanceAs (Decidable (_ ∧ _))

theorem mem_accepted_startOp (h : e ∈ accepted db (Scheduler.startOp c lease runId stamp)) :
    e = runStartedEnvelope stamp runId c.sessionId c.taskId := by
  have hbatch : ∀ {es : List EventEnvelope} {r : Except StoreError Unit},
      e ∈ acceptedBatch es r → e ∈ es := by
    intro es r hmem
    cases r with
    | ok _ => exact hmem
    | error _ => cases hmem
  cases lease with
  | none => exact mem_singleton.mp (hbatch h)
  | some lease => exact mem_singleton.mp (hbatch h)

theorem step_startOp (hg : GaplessLog db.events) (h : Recordable db c lease runId stamp) :
    (step db (Scheduler.startOp c lease runId stamp)).1
      = db.extend (runStartedEnvelope stamp runId c.sessionId c.taskId).storedRow
          db.projections := by
  obtain ⟨hlease, hid, hrun⟩ := h
  have hseq : (runStartedEnvelope stamp runId c.sessionId c.taskId).sequence
      = nextSequence db (runStartedEnvelope stamp runId c.sessionId c.taskId).aggregateId :=
    (nextSequence_new hrun).symm
  have hrow : insertEventRow db (runStartedEnvelope stamp runId c.sessionId c.taskId).storedRow
      = .ok { db with events := db.events
                ++ [(runStartedEnvelope stamp runId c.sessionId c.taskId).storedRow] } :=
    insertEventRow_next hg hid hseq
  rw [Scheduler.step_startOp_eq, Scheduler.startSealed, if_pos hlease, Scheduler.appendSealed,
    if_neg (not_not.mpr hseq), hrow]
  rfl

/-- **A start that goes into the log is found.** -/
theorem taskHasRun_start (hg : GaplessLog db.events) (h : Recordable db c lease runId stamp) :
    taskHasRun (step db (Scheduler.startOp c lease runId stamp)).1 c.taskId = true := by
  have hold : selectAggregate db runId.toText = [] := selectAggregate_new hg h.2.2
  have hx := step_extended hg (Scheduler.startOp c lease runId stamp)
  rw [step_startOp hg h] at hx ⊢
  generalize he : runStartedEnvelope stamp runId c.sessionId c.taskId = e at hx ⊢
  have hid : e.aggregateId = runId.toText := by rw [← he]; rfl
  have hpay : e.payload = .runStarted c.taskId 1 := by rw [← he]; rfl
  have hrows : selectAggregate (db.extend e.storedRow db.projections) runId.toText
      = [e.storedRow] := by
    rw [selectAggregate, hg.inOrder_eq] at hold
    have hown : stream EventRow.aggregateId runId.toText [e.storedRow] = [e.storedRow] :=
      filter_cons_of_pos (decide_eq_true hid)
    rw [selectAggregate, hx.gapless.inOrder_eq, Db.extend, stream_append, hold, hown]
    rfl
  have hparse : Uuid.parseStr e.aggregateId = some runId.uuid := by
    rw [hid]
    exact Uuid.parseStr_toText runId.uuid
  obtain ⟨ids, hids⟩ := aggregateIds_ok hparse e.aggregateType
  have hread : reconstructEnvelope e.storedRow = .ok (e.withIds ids) := by
    rw [reconstructEnvelope_storedRow (by rw [hpay]; trivial), hids]
    rfl
  refine taskHasRun_iff.mpr ⟨e.storedRow, mem_append_right _ mem_cons_self, ?_,
    e.withIds ids, [], ?_, ?_⟩
  · rw [← he]
    exact ⟨rfl, rfl⟩
  · change load _ e.aggregateId = _
    rw [hid, load, hrows, mapM_cons, hread]
    rfl
  · change startsRun c.taskId e.payload = true
    rw [hpay]
    exact decide_eq_true rfl

/-! ### Commands that move a task -/

section Lifecycle

variable {command : Command} {o : Oracle} {event : DomainEvent}

theorem mem_acceptedPlan_lifecycle {e : EventEnvelope}
    (hl : lifecycleEvent command.payload = some event)
    (ht : command.payload.targetAggregate = some taskId.toText)
    (h : e ∈ acceptedPlan db command o) : e.aggregateId = taskId.toText := by
  rw [acceptedPlan] at h
  split at h
  · next plan hs =>
    have hmem := mem_of_mem_take h
    generalize command.payload = payload at hl ht hs
    cases (stage_ok hs).1 with
    | lifecycle ht' _ _ _ _ _ =>
      rw [mem_singleton.mp hmem]
      exact Option.some.inj (ht'.symm.trans ht)
    | session _ | task _ | input _ _ _ _ | question _ | goal _ _ | fork _ | rewind _ _ _ => cases hl
  · cases h

variable {es : List EventEnvelope} {state state' : TaskState}

theorem stage_lifecycle {payload : CommandPayload}
    (hev : db.events = es.map EventEnvelope.storedRow) (hg : GaplessLog db.events)
    (hplan : plan db o payload = planLifecycle db o payload)
    (hl : lifecycleEvent payload = some event)
    (ht : payload.targetAggregate = some taskId.toText) (hself : selfCertified payload = false)
    (hstate : stateOf db taskId = some state) (ha : applyTaskEvent state event = .ok state') :
    ∃ plan, stage db o payload = .ok plan := by
  obtain ⟨history, hload, hfold⟩ := stateOf_eq_some hstate
  have hrows := selectAggregate_stored hg hev taskId.toText
  have hlen : history.length + 1 = nextSequence db taskId.toText := by
    have hmap := mapM_attribute (p := fun _ => ()) (q := fun _ => ()) (fun _ => rfl) hload
    have hsame : history.length = (selectAggregate db taskId.toText).length := by
      simpa using congrArg List.length hmap
    rw [hsame, selectAggregate, hg.inOrder_eq, nextSequence, hg.nextSeq_eq]
  have hsess : ∃ sessionId, taskSession db taskId = .ok sessionId := by
    cases hstream : envelopesOf taskId.toText es with
    | nil =>
      rw [loadTaskEvents, hrows, hstream] at hload
      obtain rfl : [] = history := Except.ok.inj hload
      cases hfold
    | cons e rest =>
      refine ⟨e.sessionId, ?_⟩
      rw [taskSession, hrows, hstream, map_cons, head?_cons, okOr_some, ok_bind]
      exact okOr_eq_ok.mpr (Id.parse_toText e.sessionId)
  obtain ⟨sessionId, hsess⟩ := hsess
  refine ⟨[taskEnvelope o.first taskId sessionId event (history.length + 1)], ?_⟩
  have hparse : (Id.parse taskId.toText : Option TaskId) = some taskId := Id.parse_toText taskId
  have hpass : ∀ x : Reason, refuseIf (selfCertified payload = true ∧ history.any isGoalSet = true) x
      = .ok () := fun x => refuseIf_eq_ok.mpr (by simp [hself])
  have hplanned : planLifecycle db o payload
      = .ok [taskEnvelope o.first taskId sessionId event (history.length + 1)] := by
    rw [planLifecycle, ht]
    simp only [okOr_some, ok_bind, hparse, hload, currentState_eq hfold, hpass, hl, ha,
      Except.mapError, hsess, pure_eq_ok]
  rw [stage, hplan, hplanned, ok_bind, continuity_cons hlen, continuity]
  rfl

theorem stateOf_commit {plan : List EventEnvelope} {payload : CommandPayload} (hg : GaplessLog db.events)
    (hl : lifecycleEvent payload = some event) (ht : payload.targetAggregate = some taskId.toText)
    (hs : stage db o payload = .ok plan) (row : CommandLogRow) :
    ∃ state state', stateOf db taskId = some state ∧ applyTaskEvent state event = .ok state' ∧
      stateOf ((db.commit plan).withLog row) taskId = some state' := by
  have hx := commit_extended hg hs plan.length
  rw [take_length] at hx
  have hf : ∀ e ∈ plan, e.payload.Faithful := fun e he => ((stage_ok hs).1.core e he).faithful
  cases (stage_ok hs).1 with
  | @lifecycle _ taskId' sessionId event' history state state' ht' hl' hh hfold ha _ =>
    obtain rfl : taskId = taskId' := Id.toText_inj (Option.some.inj (ht.symm.trans ht'))
    obtain rfl : event = event' := Option.some.inj (hl.symm.trans hl')
    have hload := loadTaskEvents_extended hg (hx.withLog row) hf hh
    have hown : envelopesOf taskId.toText [taskEnvelope o.first taskId sessionId event
        (history.length + 1)] = [taskEnvelope o.first taskId sessionId event
          (history.length + 1)] := filter_cons_of_pos (decide_eq_true rfl)
    rw [hown] at hload
    exact ⟨state, state', stateOf_eq hh hfold, ha, stateOf_eq hload (foldTask_concat hfold ha)⟩
  | session _ | task _ | input _ _ _ _ | question _ | goal _ _ | fork _ | rewind _ _ _ => cases hl

theorem applyTaskEvent_failed {failureCode message : String}
    (h : applyTaskEvent state (.taskFailed failureCode message) = .ok state') :
    state' = .failed := by
  cases state <;> cases h <;> rfl

theorem execute_lifecycle
    (hev : db.events = es.map EventEnvelope.storedRow) (hg : GaplessLog db.events)
    (hf : Fresh db o) (hu : Unseen db command)
    (hplan : plan db o command.payload = planLifecycle db o command.payload)
    (hl : lifecycleEvent command.payload = some event)
    (ht : command.payload.targetAggregate = some taskId.toText)
    (hself : selfCertified command.payload = false) (hstate : stateOf db taskId = some state)
    (ha : applyTaskEvent state event = .ok state') :
    ∃ e : EventEnvelope, e.eventId = o.first.eventId.toText ∧ e.aggregateId = taskId.toText ∧
      e.payload = event ∧
      execute db command o = ((db.commit [e]).withLog (logRow command o (.ok [e.eventId])),
        .ok (.applied [e.eventId])) ∧
      stateOf (execute db command o).1 taskId = some state' := by
  obtain ⟨plan, hs⟩ := stage_lifecycle hev hg hplan hl ht hself hstate ha
  obtain ⟨e, rfl, hid, hagg, hpay, hclean⟩ : ∃ e, plan = [e] ∧ e.eventId = o.first.eventId.toText ∧
      e.aggregateId = taskId.toText ∧ e.payload = event ∧ Clean project db.projections [e] := by
    have hst := (stage_ok hs).1
    generalize command.payload = payload at hst hl ht
    cases hst with
    | lifecycle ht' hl' _ _ _ _ =>
      exact ⟨_, rfl, rfl, Option.some.inj (ht'.symm.trans ht), Option.some.inj (hl'.symm.trans hl),
        clean_singleton (projectable_lifecycle hl' _ _ _ _ _)⟩
    | session _ | task _ | input _ _ _ _ | question _ | goal _ _ | fork _ | rewind _ _ _ => cases hl
  have hexec := execute_commit hg hf hu hs hclean
  refine ⟨e, hid, hagg, hpay, hexec, ?_⟩
  obtain ⟨s, s', hs0, ha', hafter⟩ := stateOf_commit hg hl ht hs (logRow command o (.ok [e.eventId]))
  obtain rfl : state = s := Option.some.inj (hstate.symm.trans hs0)
  rw [hexec]
  exact hafter.trans (congrArg some (Except.ok.inj (ha'.symm.trans ha)))

/-- **A task that is failed is not running afterwards.** -/
theorem stateOf_failTask {failureCode message : String}
    (hev : db.events = es.map EventEnvelope.storedRow) (hg : GaplessLog db.events)
    (hf : Fresh db o) (hu : Unseen db command)
    (hp : command.payload = .failTask taskId failureCode message) :
    stateOf (execute db command o).1 taskId ≠ some .running := by
  intro hrunning
  have hres := execute_result db command o
  cases hs : stage db o command.payload with
  | error reason =>
    generalize execute db command o = r at hres hrunning
    cases hres with
    | seen hrow =>
      rw [find?_eq_none_iff.mpr hu] at hrow
      cases hrow
    | refused _ _ =>
      -- the state did not change, and a running task can be failed
      have hbefore : stateOf db taskId = some .running := hrunning
      have haccepts : applyTaskEvent .running (.taskFailed failureCode message) = .ok .failed := rfl
      obtain ⟨plan, hplan⟩ : ∃ plan, stage db o (.failTask taskId failureCode message) = .ok plan :=
        stage_lifecycle hev hg rfl rfl rfl rfl hbefore haccepts
      rw [hp, hplan] at hs
      cases hs
    | applied _ hs' _ => rw [hs'] at hs; cases hs
    | stopped _ hs' _ _ => rw [hs'] at hs; cases hs
  | ok plan =>
    have hclean : Clean project db.projections plan := by
      have hs' := hs
      rw [hp] at hs'
      cases (stage_ok hs').1 with
      | lifecycle _ hl _ _ _ _ => exact clean_singleton (projectable_lifecycle hl _ _ _ _ _)
    have happlied := execute_applied hg hf hu hs hclean
    generalize execute db command o = r at hres hrunning happlied
    cases hres with
    | seen hrow =>
      rw [find?_eq_none_iff.mpr hu] at hrow
      cases hrow
    | refused _ hs' => rw [hs'] at hs; cases hs
    | stopped _ _ _ _ => cases happlied
    | applied _ hs' _ =>
      obtain rfl := Except.ok.inj (hs.symm.trans hs')
      rw [hp] at hs'
      have htarget : (CommandPayload.failTask taskId failureCode message).targetAggregate
          = some taskId.toText := rfl
      obtain ⟨s, s', -, ha, hafter⟩ := stateOf_commit hg rfl htarget hs'
        (logRow command o (.ok (plan.map EventEnvelope.eventId)))
      rw [hafter, applyTaskEvent_failed ha] at hrunning
      cases hrunning

end Lifecycle

end Modbit
