import Modbit.Fleet.Admission
import Modbit.Fleet.NodeText

/-!
# What a failed admission leaves behind

A call of `spawn_agent` that fails after the child was created is to leave the child cancelled,
without a scope and without a live node, and its idempotency key free.  `Undone` is that, and
`Compensated` says which failures are undone, in terms of the services before the call and of
what fails in it.

`Child` follows the child through the phases: its events fold to a state, and its rows show it.
`undone_iff` is the result: for every store, fleet and request, a call that fails has left
nothing behind if and only if its child was not created, or the failure is compensated.
-/

namespace Modbit

open Lib WriteScopes List

namespace Fleet

/-! ### What a failed call is to leave -/

/-- The tasks it has created are terminal and hold no scope, no live node is for one of them, and
the key is registered as before. -/
structure Undone (s s' : Services) (spawn : SpawnAgentCommand) : Prop where
  terminal : ∀ t ∈ s'.db.projections.tasks, t.taskId ∉ s.db.projections.taskIds →
    t.state ∈ TERMINAL_STATES
  unheld : ∀ repoKey, ∀ h ∈ heldScopes s'.db repoKey, h.taskId ∈ s.db.projections.taskIds
  unreferred : ∀ f' ∈ s'.fleet, ∀ id n, f'.fleet.nodes.find? id = some n →
    n.taskId ∈ s'.db.projections.taskIds → n.taskId ∉ s.db.projections.taskIds →
      n.status.finished = true
  afresh : spawn.idempotencyKey ≠ "" → ∀ f ∈ s.fleet, ∀ f' ∈ s'.fleet,
    f'.fleet.idempotency.find? spawn.idempotencyKey = f.fleet.idempotency.find? spawn.idempotencyKey

def Unused (db : Db) (turn : Turn) : Prop :=
  Fresh db turn.oracle ∧ turn.commandId ∉ db.commandLog.map CommandLogRow.commandId

structure DrawsApart (turn turn' : Turn) : Prop where
  commandId : turn.commandId ≠ turn'.commandId
  aggregate : turn.oracle.aggregate ≠ turn'.oracle.aggregate
  first : turn.oracle.first.eventId ≠ turn'.oracle.first.eventId
  second : turn.oracle.first.eventId ≠ turn'.oracle.second.eventId

def Turns.child (turns : Turns) : TaskId := ⟨turns.create.oracle.aggregate⟩

/-- The identities drawn in a call are new, as those of `Uuid::now_v7` are. -/
structure Drawn (s : Services) (turns : Turns) : Prop where
  unused : ∀ turn ∈ [turns.create, turns.queue, turns.start, turns.cancel], Unused s.db turn
  apart : [turns.create, turns.queue, turns.start, turns.cancel].Pairwise DrawsApart
  scopes : turns.child.toText ∉ s.db.taskWriteScopes.map WriteScopeRow.taskId
  nodes : ∀ f ∈ s.fleet, ∀ id n, f.fleet.nodes.find? id = some n → n.taskId ≠ turns.child.toText

/-- The declared scope overlaps one that is held. -/
def Overlaps (db : Db) (repoKey spec : String) : Prop :=
  parseScope spec ≠ [] ∧
    (findConflict (heldScopes (releaseTerminal db) repoKey) (parseScope spec)).isSome = true

def Broken (db : Db) (repoKey spec : String) (statement : Option Nat) : Prop :=
  parseScope spec ≠ [] ∧ ∃ n ∈ statement,
    n < 2 ∨ ¬ Overlaps db repoKey spec ∧ n < 3 + (parseScope spec).length

section Condition

variable (turns : Turns) (s : Services) (spawn : SpawnAgentCommand)

/-- The checks pass and `CreateTask` takes effect. -/
def Admitted : Prop :=
  s.lookup spawn = .parent ∧ ∃ session, s.checkParent spawn = .count session ∧
    s.checkCount spawn session = .create session ∧
      ∃ sessionId : SessionId, Id.parse session = some sessionId ∧
        0 < countEvents s.db sessionId.toText ∧
          sessionId.toText ∈ s.db.projections.sessionIds ∧ turns.create.fault ≠ .store

def Conflicts : Prop := Overlaps s.db (parentRepoKey s.db spawn.parentTaskId) spawn.writeScope

def Breaks : Prop :=
  Broken s.db (parentRepoKey s.db spawn.parentTaskId) spawn.writeScope turns.acquire.statement

/-- `QueueTask` or `StartTask` fails. -/
def Stuck : Prop := turns.queue.fault ≠ .none ∨ turns.start.fault ≠ .none

/-- The fleet takes the parent's node for one of an agent that it does not have. -/
def Orphaned (f : AgentFleet) : Prop :=
  ∃ n, f.nodes.find? spawn.parentTaskId = some n ∧ f.nodes.find? n.agentId = none

def Registered (f : AgentFleet) : Prop := ((Services.key spawn).bind f.idempotency.find?).isSome = true

/-- A failure from the fleet on is undone.  Without a fleet the acquisition must not fail, and the
cancellation must take effect if there is something to cancel.  With a fleet what may fail are the
lock, the parent's node, and the journal for a spawn without a key; a key that leads to no node is a
panic, and no error. -/
def Recovers : Prop :=
  match s.fleet with
  | none => ¬ Breaks turns s spawn ∧
      (Conflicts s spawn ∨ Stuck turns → turns.cancel.fault ≠ .store)
  | some f =>
    (s.poisoned = true → turns.cancel.fault ≠ .store) ∧
      (s.poisoned = false → ¬ Registered spawn f.fleet →
        (Orphaned spawn f.fleet → turns.cancel.fault ≠ .store) ∧
          (¬ Orphaned spawn f.fleet →
            ((f.fleet.journal = true ∧ turns.node.disk ≠ .writes) →
              spawn.idempotencyKey = "" ∧ turns.cancel.fault ≠ .store) ∧
            (¬ (f.fleet.journal = true ∧ turns.node.disk ≠ .writes) →
              ¬ Breaks turns s spawn ∧ ¬ Conflicts s spawn ∧ ¬ Stuck turns)))

/-- A failure of an admitted call is undone. -/
def Compensated : Prop := turns.create.fault ≠ .lookup ∧ Recovers turns s spawn

end Condition

/-! ### The child -/

/-- The child in the store: it is the one task that was added, and its rows show its state. -/
structure Child (ids : List String) (db : Db) (child : TaskId) (state : TaskState) : Prop where
  gapless : GaplessLog db.events
  stored : ∃ es : List EventEnvelope, db.events = es.map EventEnvelope.storedRow
  taskIds : db.projections.taskIds = ids ++ [child.toText]
  shows : db.Shows child
  state : stateOf db child = some state

variable {ids : List String} {db db' : Db} {child : TaskId} {state state' : TaskState} {turn : Turn}
  {payload : CommandPayload} {event : DomainEvent} {t : TaskRow}

theorem Child.row_state (h : Child ids db child state) (ht : t ∈ db.projections.tasks)
    (hid : t.taskId = child.toText) : t.state = state.text := by
  obtain ⟨history, hload, hfold⟩ := stateOf_eq_some h.state
  exact (h.shows history hload).agrees state hfold t ht hid

theorem Child.eq_child (h : Child ids db child state) (ht : t ∈ db.projections.tasks)
    (hnew : t.taskId ∉ ids) : t.taskId = child.toText := by
  have hmem : t.taskId ∈ db.projections.taskIds := mem_map_of_mem ht
  rw [h.taskIds] at hmem
  exact mem_singleton.mp ((mem_append.mp hmem).resolve_left hnew)

theorem Child.exists_row (h : Child ids db child state) :
    ∃ t ∈ db.projections.tasks, t.taskId = child.toText := by
  have hmem : child.toText ∈ db.projections.taskIds := by
    rw [h.taskIds]
    exact mem_append_right _ mem_cons_self
  obtain ⟨t, ht, hid⟩ := mem_map.mp hmem
  exact ⟨t, ht, hid⟩

theorem Child.terminal_iff (h : Child ids db child state) (hnew : child.toText ∉ ids) :
    (∀ t ∈ db.projections.tasks, t.taskId ∉ ids → t.state ∈ TERMINAL_STATES)
      ↔ state.terminal = true := by
  rw [← text_terminal_iff]
  constructor
  · intro hall
    obtain ⟨t, ht, hid⟩ := h.exists_row
    exact h.row_state ht hid ▸ hall t ht (hid ▸ hnew)
  · intro hterminal t ht hadded
    exact (h.row_state ht (h.eq_child ht hadded)).symm ▸ hterminal

theorem unheld_of_terminal (h : ∀ t ∈ db.projections.tasks, t.taskId ∉ ids → t.state ∈ TERMINAL_STATES)
    (repoKey : String) : ∀ row ∈ heldScopes db repoKey, row.taskId ∈ ids := by
  intro row hrow
  obtain ⟨-, hheld⟩ := mem_filter.mp hrow
  obtain ⟨t, ht, hid⟩ := mem_map.mp (of_decide_eq_true hheld).2
  obtain ⟨htask, hactive⟩ := mem_filter.mp ht
  by_contra hnot
  have hterminal := h t htask (hid ▸ hnot)
  have hactive' : t.state ∈ activeStates := of_decide_eq_true hactive
  have hapart : ∀ state ∈ activeStates, state ∉ TERMINAL_STATES := by decide
  exact hapart _ hactive' hterminal

/-! ### Commands of a call -/

def Turn.command (turn : Turn) (payload : CommandPayload) : Command :=
  ⟨turn.commandId, ⟨.user, "desktop-main"⟩, payload⟩

theorem executeCommand_store (h : turn.fault = .store) :
    executeCommand db payload turn = (db, .error .fault) := if_pos h

variable {e : EventEnvelope}

theorem executeCommand_applied {row : CommandLogRow} (hunused : Unused db turn)
    (hid : e.eventId = turn.oracle.first.eventId.toText) (hfault : turn.fault ≠ .store)
    (hexec : execute db (turn.command payload) turn.oracle
      = ((db.commit [e]).withLog row, .ok (.applied [e.eventId]))) :
    executeCommand db payload turn = ((db.commit [e]).withLog row,
      if turn.fault = .none then .ok (some e.aggregateId) else .error .fault) := by
  have hexec' : execute db ⟨turn.commandId, ⟨.user, "desktop-main"⟩, payload⟩ turn.oracle = _ := hexec
  have hfind : ((db.commit [e]).withLog row).events.find? (fun r => r.eventId = e.eventId)
      = some e.commandRow := find?_commit hunused.1 hid
  rw [executeCommand, if_neg hfault, hexec']
  simp only [aggregateOfFirst, head?_cons, aggregateOfEvent, hfind]
  cases hturn : turn.fault with
  | none => rfl
  | lookup => rfl
  | store => exact absurd hturn hfault

theorem Unused.commit {turn' : Turn} {row : CommandLogRow} (h : Unused db turn')
    (hapart : DrawsApart turn turn') (hid : e.eventId = turn.oracle.first.eventId.toText)
    (hagg : turn'.oracle.aggregate.toText ≠ e.aggregateId) (hrow : row.commandId = turn.commandId) :
    Unused ((db.commit [e]).withLog row) turn' := by
  obtain ⟨hfresh, hseen⟩ := h
  have hevent : ∀ u : Uuid, turn.oracle.first.eventId ≠ u → u.toText ∉ db.events.map EventRow.eventId →
      u.toText ∉ (db.events ++ [e.commandRow]).map EventRow.eventId := by
    intro u hne hold hmem
    rw [map_append, mem_append] at hmem
    rcases hmem with hmem | hmem
    · exact hold hmem
    · have heq : u.toText = e.eventId := mem_singleton.mp hmem
      exact hne (Uuid.toText_inj (hid.symm.trans heq.symm))
  refine ⟨⟨fun hmem => ?_, hevent _ hapart.first hfresh.first, hevent _ hapart.second hfresh.second,
    hfresh.distinct⟩, fun hmem => ?_⟩
  · have hmem' : turn'.oracle.aggregate.toText
        ∈ (db.events ++ [e.commandRow]).map EventRow.aggregateId := hmem
    rw [map_append, mem_append] at hmem'
    rcases hmem' with hmem' | hmem'
    · exact hfresh.aggregate hmem'
    · exact hagg (mem_singleton.mp hmem')
  · have hmem' : turn'.commandId ∈ (db.commandLog ++ [row]).map CommandLogRow.commandId := hmem
    rw [map_append, mem_append] at hmem'
    rcases hmem' with hmem' | hmem'
    · exact hseen hmem'
    · exact hapart.commandId (hrow.symm.trans (mem_singleton.mp hmem').symm)

theorem stored_execute {command : Command} {o : Oracle} (hg : GaplessLog db.events)
    (h : ∃ es : List EventEnvelope, db.events = es.map EventEnvelope.storedRow) :
    ∃ es : List EventEnvelope, (execute db command o).1.events = es.map EventEnvelope.storedRow := by
  obtain ⟨es, hes⟩ := h
  refine ⟨es ++ acceptedPlan db command o, ?_⟩
  rw [(execute_extended hg).events, hes, map_append]

theorem taskIds_applyOrKeep {p : Projections} (h : createdTask e = []) :
    (applyOrKeep project p e).taskIds = p.taskIds := by
  cases hp : project p e with
  | error x => rw [applyOrKeep_error hp]
  | ok p' => rw [applyOrKeep_ok hp, (project_keys hp).2.1, h, append_nil]

/-- **A command that moves the child.**  It fails where its turn does, and moves the child unless the
store fails. -/
theorem executeCommand_moves (h : Child ids db child state) (hunused : Unused db turn)
    (hplan : plan db turn.oracle payload = planLifecycle db turn.oracle payload)
    (hl : lifecycleEvent payload = some event) (ht : payload.targetAggregate = some child.toText)
    (hself : selfCertified payload = false) (ha : applyTaskEvent state event = .ok state') :
    ∃ db', executeCommand db payload turn
        = (db', if turn.fault = .none then .ok (some child.toText) else .error .fault) ∧
      Child ids db' child (if turn.fault = .store then state else state') ∧
      db'.taskWriteScopes = db.taskWriteScopes ∧
      ∀ turn', DrawsApart turn turn' → turn'.oracle.aggregate ≠ child.uuid → Unused db turn' →
        Unused db' turn' := by
  by_cases hfault : turn.fault = .store
  · refine ⟨db, ?_, ?_, rfl, fun _ _ _ hu => hu⟩
    · rw [executeCommand_store hfault, hfault]
      rfl
    · rw [if_pos hfault]
      exact h
  · obtain ⟨es, hes⟩ := h.stored
    have hu : Unseen db (turn.command payload) := hunused.2
    obtain ⟨e, hid, hagg, hpay, hexec, hstate⟩ :=
      execute_lifecycle hes h.gapless hunused.1 hu hplan hl ht hself h.state ha
    refine ⟨(execute db (turn.command payload) turn.oracle).1, ?_, ?_, ?_, ?_⟩
    · rw [executeCommand_applied hunused hid hfault hexec, hexec, hagg]
    · rw [if_neg hfault]
      have hcreated : createdTask e = [] := by
        rw [createdTask, hpay]
        cases payload <;> cases hl <;> cases e.aggregateType <;> rfl
      refine ⟨(execute_extended h.gapless).gapless, stored_execute h.gapless ⟨es, hes⟩, ?_,
        shows_execute h.gapless h.shows, hstate⟩
      rw [hexec, ← h.taskIds]
      exact taskIds_applyOrKeep hcreated
    · exact (execute_sameRegistries db _ _).2
    · intro turn' hapart hagg' hunused'
      rw [hexec]
      refine hunused'.commit hapart hid ?_ rfl
      rw [hagg]
      exact fun heq => hagg' (Uuid.toText_inj heq)

/-! ### Scopes -/

structure SameLog (db db' : Db) : Prop where
  events : db'.events = db.events
  projections : db'.projections = db.projections
  commandLog : db'.commandLog = db.commandLog

theorem Child.sameLog (h : Child ids db child state) (hsame : SameLog db db') :
    Child ids db' child state := by
  have hload : loadTaskEvents db' child = loadTaskEvents db child := by
    rw [loadTaskEvents, loadTaskEvents, selectAggregate, selectAggregate, hsame.events]
  refine ⟨hsame.events ▸ h.gapless, hsame.events ▸ h.stored, hsame.projections ▸ h.taskIds,
    fun history hhistory => ?_, ?_⟩
  · rw [hsame.projections]
    exact h.shows history (hload ▸ hhistory)
  · rw [stateOf, hload]
    exact h.state

theorem Unused.sameLog (h : Unused db turn) (hsame : SameLog db db') : Unused db' turn := by
  rw [Unused, hsame.commandLog]
  exact ⟨⟨hsame.events ▸ h.1.aggregate, hsame.events ▸ h.1.first, hsame.events ▸ h.1.second,
    h.1.distinct⟩, h.2⟩

theorem acquire_spec (db : Db) (taskId repoKey spec : String) :
    SameLog db (acquire db taskId repoKey spec).1 ∧
      (parseScope spec ≠ [] →
        (findConflict (heldScopes (releaseTerminal db) repoKey) (parseScope spec)).isSome = true →
          ∃ holder path, (acquire db taskId repoKey spec).2 = .denied holder path) ∧
      ((findConflict (heldScopes (releaseTerminal db) repoKey) (parseScope spec)).isSome = false →
        (acquire db taskId repoKey spec).2 = .acquired) := by
  rw [acquire]
  split_ifs with hempty
  · exact ⟨⟨rfl, rfl, rfl⟩, fun hne => absurd hempty hne, fun _ => rfl⟩
  · dsimp only
    cases findConflict (heldScopes (releaseTerminal db) repoKey) (parseScope spec) with
    | none => exact ⟨⟨rfl, rfl, rfl⟩, fun _ hsome => (by cases hsome), fun _ => rfl⟩
    | some c => exact ⟨⟨rfl, rfl, rfl⟩, fun _ _ => ⟨_, _, rfl⟩, fun hnone => (by cases hnone)⟩

theorem acquire_empty {db : Db} {taskId repoKey spec : String} (h : parseScope spec = []) :
    acquire db taskId repoKey spec = (db, .acquired) := if_pos h

section Acquisition

variable (db : Db) (taskId repoKey spec : String) (statement : Option Nat)

/-- What an acquisition answers when a statement may fail. -/
structure Acquires (r : Db × Except SpawnError AcquireOutcome) : Prop where
  same : SameLog db r.1
  broken : Broken db repoKey spec statement → ∃ e, r.2 = .error e
  denied : ¬ Broken db repoKey spec statement → Overlaps db repoKey spec →
    ∃ holder path, r.2 = .ok (.denied holder path)
  acquired : ¬ Broken db repoKey spec statement → ¬ Overlaps db repoKey spec → r.2 = .ok .acquired

variable {db taskId repoKey spec statement}

theorem acquires_whole (taskId : String) (hnot : ¬ Broken db repoKey spec statement) :
    Acquires db repoKey spec statement ((acquire db taskId repoKey spec).map id .ok) := by
  obtain ⟨hsame, hdenied, hacquired⟩ := acquire_spec db taskId repoKey spec
  refine ⟨hsame, fun h => absurd h hnot, fun _ ⟨hne, hover⟩ => ?_, fun _ hover => ?_⟩
  · obtain ⟨holder, path, hd⟩ := hdenied hne hover
    exact ⟨holder, path, congrArg Except.ok hd⟩
  · by_cases hempty : parseScope spec = []
    · rw [acquire_empty hempty]
      rfl
    · refine congrArg Except.ok (hacquired (Bool.eq_false_iff.mpr (fun h => hover ⟨hempty, h⟩)))

theorem acquires_broken {db' : Db} (hsame : SameLog db db') (hbroken : Broken db repoKey spec statement) :
    Acquires db repoKey spec statement (db', .error .fault) :=
  ⟨hsame, fun _ => ⟨_, rfl⟩, fun hnot => absurd hbroken hnot, fun hnot => absurd hbroken hnot⟩

theorem acquireUpTo_acquires :
    Acquires db repoKey spec statement (acquireUpTo db taskId repoKey spec statement) := by
  unfold acquireUpTo
  cases statement with
  | none =>
    refine acquires_whole taskId ?_
    rintro ⟨-, n, hn, -⟩
    cases hn
  | some n =>
    dsimp only
    have hbroken : parseScope spec ≠ [] →
        (n < 2 ∨ ¬ Overlaps db repoKey spec ∧ n < 3 + (parseScope spec).length) →
          Broken db repoKey spec (some n) := fun hne hn => ⟨hne, n, rfl, hn⟩
    split_ifs with hempty h0 h1 hover h2 hlt
    · have hnot : ¬ Broken db repoKey spec (some n) := fun h => h.1 hempty
      have hwhole := acquires_whole taskId hnot
      rw [acquire_empty hempty] at hwhole
      exact hwhole
    · exact acquires_broken ⟨rfl, rfl, rfl⟩ (hbroken hempty (.inl (by omega)))
    · exact acquires_broken ⟨rfl, rfl, rfl⟩ (hbroken hempty (.inl (by omega)))
    · refine acquires_whole taskId ?_
      rintro ⟨-, m, hm, hlow | ⟨hfree, -⟩⟩
      · cases hm
        omega
      · exact hfree ⟨hempty, hover⟩
    · exact acquires_broken ⟨rfl, rfl, rfl⟩
        (hbroken hempty (.inr ⟨fun h => hover h.2, by omega⟩))
    · exact acquires_broken ⟨rfl, rfl, rfl⟩ (hbroken hempty (.inr ⟨fun h => hover h.2, hlt⟩))
    · refine acquires_whole taskId ?_
      rintro ⟨-, m, hm, hlow | ⟨-, hhigh⟩⟩
      · cases hm
        omega
      · cases hm
        exact hlt hhigh

end Acquisition

/-! ### The creation -/

structure Minted (s : Services) (turns : Turns) (db : Db) : Prop where
  child : Child s.db.projections.taskIds db turns.child .created
  tasks : ∃ t : TaskRow, db.projections.tasks = s.db.projections.tasks ++ [t] ∧
    t.taskId = turns.child.toText ∧ t.state = "created"
  events : ∃ r : EventRow, db.events = s.db.events ++ [r] ∧ r.aggregateId = turns.child.toText
  scopes : db.taskWriteScopes = s.db.taskWriteScopes
  unused : ∀ turn ∈ [turns.queue, turns.start, turns.cancel], Unused db turn

variable {s : Services} {turns : Turns} {spawn : SpawnAgentCommand} {sessionId : SessionId}

theorem Drawn.child_new (h : Drawn s turns) (hk : KeysLogged s.db.events s.db.projections) :
    turns.child.toText ∉ s.db.projections.taskIds := fun hmem =>
  (h.unused turns.create mem_cons_self).1.aggregate (hk.tasks _ hmem)

theorem shows_new (hg : GaplessLog db.events) (hk : KeysLogged db.events db.projections)
    (h : child.toText ∉ db.events.map EventRow.aggregateId) : db.Shows child := by
  intro history hload
  rw [loadTaskEvents, selectAggregate_new hg h] at hload
  obtain rfl : [] = history := Except.ok.inj hload
  refine ⟨?_, fun state hstate => (by cases hstate)⟩
  rintro ⟨t, ht, hid⟩
  exact absurd (hk.tasks _ (hid ▸ mem_map_of_mem ht)) h

/-- **The command that creates the child.** -/
theorem create_minted (hg : GaplessLog s.db.events)
    (hstored : ∃ es : List EventEnvelope, s.db.events = es.map EventEnvelope.storedRow)
    (hk : KeysLogged s.db.events s.db.projections) (hdrawn : Drawn s turns)
    (spawn : SpawnAgentCommand) (hcount : 0 < countEvents s.db sessionId.toText)
    (hsession : sessionId.toText ∈ s.db.projections.sessionIds) (hfault : turns.create.fault ≠ .store) :
    ∃ db, executeCommand s.db (Services.createPayload spawn sessionId) turns.create
        = (db, if turns.create.fault = .none then .ok (some turns.child.toText) else .error .fault) ∧
      Minted s turns db := by
  have hunused := hdrawn.unused turns.create mem_cons_self
  have hu : Unseen s.db (turns.create.command (Services.createPayload spawn sessionId)) := hunused.2
  obtain ⟨e, hid, hagg, hexec, hstate, t, htasks, htask, htext⟩ :=
    execute_createTask hg hk hunused.1 hu rfl hcount hsession
  refine ⟨(execute s.db (turns.create.command (Services.createPayload spawn sessionId))
    turns.create.oracle).1, ?_, ⟨⟨?_, ?_, ?_, ?_, hstate⟩, ⟨t, htasks, htask, htext⟩, ?_, ?_, ?_⟩⟩
  · rw [executeCommand_applied hunused hid hfault hexec, hexec, hagg]
    rfl
  · exact (execute_extended hg).gapless
  · exact stored_execute hg hstored
  · rw [Projections.taskIds, htasks, map_append, map_singleton, htask]
    rfl
  · exact shows_execute hg (shows_new hg hk hunused.1.aggregate)
  · rw [hexec]
    exact ⟨e.commandRow, rfl, hagg⟩
  · exact (execute_sameRegistries s.db _ _).2
  · intro turn hturn
    have hapart : DrawsApart turns.create turn := (pairwise_cons.mp hdrawn.apart).1 turn hturn
    rw [hexec]
    refine (hdrawn.unused turn (mem_cons_of_mem _ hturn)).commit hapart hid ?_ rfl
    rw [hagg]
    exact fun heq => hapart.aggregate (Uuid.toText_inj heq).symm

theorem tasksIn_append (h : db'.projections.tasks = db.projections.tasks ++ [t])
    (states : List String) :
    tasksIn db' states = tasksIn db states ++ if t.state ∈ states then [t.taskId] else [] := by
  rw [tasksIn, tasksIn, h, filter_append, map_append]
  by_cases ht : t.state ∈ states
  · have hone : [t].filter (fun t => t.state ∈ states) = [t] :=
      filter_cons_of_pos (decide_eq_true ht)
    rw [if_pos ht, hone, map_singleton]
  · have hnone : [t].filter (fun t => t.state ∈ states) = [] :=
      filter_cons_of_neg (by simpa using ht)
    rw [if_neg ht, hnone, map_nil]

theorem Minted.heldScopes_eq (h : Minted s turns db) (hdrawn : Drawn s turns) (repoKey : String) :
    heldScopes (releaseTerminal db) repoKey = heldScopes (releaseTerminal s.db) repoKey := by
  obtain ⟨t, htasks, hid, htext⟩ := h.tasks
  have hterminal : tasksIn db TERMINAL_STATES = tasksIn s.db TERMINAL_STATES := by
    rw [tasksIn_append htasks, if_neg (by rw [htext]; decide), append_nil]
  have hactive : tasksIn db activeStates = tasksIn s.db activeStates ++ [t.taskId] := by
    rw [tasksIn_append htasks, if_pos (by rw [htext]; decide)]
  have hpruned : (releaseTerminal db).taskWriteScopes = (releaseTerminal s.db).taskWriteScopes := by
    rw [releaseTerminal, releaseTerminal, hterminal, h.scopes]
  rw [heldScopes, heldScopes, hpruned]
  refine filter_congr (fun row hrow => ?_)
  have hother : row.taskId ≠ t.taskId := by
    intro heq
    have hmem : row ∈ s.db.taskWriteScopes := (mem_filter.mp hrow).1
    exact hdrawn.scopes (hid ▸ heq ▸ mem_map_of_mem hmem)
  have hsame : row.taskId ∈ tasksIn (releaseTerminal db) activeStates
      ↔ row.taskId ∈ tasksIn (releaseTerminal s.db) activeStates := by
    show row.taskId ∈ tasksIn db activeStates ↔ row.taskId ∈ tasksIn s.db activeStates
    rw [hactive, mem_append, mem_singleton, or_iff_left hother]
  rw [decide_eq_decide]
  exact and_congr_right (fun _ => hsame)

theorem Minted.parentRepoKey_eq (h : Minted s turns db) {parent : String}
    (hparent : parent ≠ turns.child.toText) : parentRepoKey db parent = parentRepoKey s.db parent := by
  obtain ⟨r, hevents, hid⟩ := h.events
  have hskip : [r].find? (fun r => r.aggregateId = parent ∧ r.eventType = "task_created") = none := by
    refine find?_eq_none.mpr (fun r' hr' => ?_)
    rw [mem_singleton.mp hr']
    simpa using fun heq : r.aggregateId = parent => absurd (heq.symm.trans hid) hparent
  rw [parentRepoKey, parentRepoKey, hevents, find?_append, hskip, Option.or_none]

theorem Minted.overlaps_iff (h : Minted s turns db) (hdrawn : Drawn s turns)
    (hparent : spawn.parentTaskId ≠ turns.child.toText) :
    Overlaps db (parentRepoKey db spawn.parentTaskId) spawn.writeScope ↔ Conflicts s spawn := by
  rw [Conflicts, Overlaps, Overlaps, h.parentRepoKey_eq hparent, h.heldScopes_eq hdrawn]

theorem Minted.broken_iff (h : Minted s turns db) (hdrawn : Drawn s turns)
    (hparent : spawn.parentTaskId ≠ turns.child.toText) :
    Broken db (parentRepoKey db spawn.parentTaskId) spawn.writeScope turns.acquire.statement
      ↔ Breaks turns s spawn := by
  rw [Breaks, Broken, Broken, h.overlaps_iff hdrawn hparent]
  rfl

/-! ### The phases after the creation -/

section Phases

variable {json : Jsonl.Codec AgentNode} {t : Services}

theorem iterate_done (n : Nat) (r : Except SpawnError (Option TaskView)) :
    (runPhase json turns spawn)^[n] (t, .done r) = (t, .done r) := Function.iterate_fixed rfl n

/-- A task that is not terminal, and not under review, can be cancelled. -/
def Cancellable (state : TaskState) : Prop :=
  state.terminal = false ∧ ∀ reason, applyTaskEvent state (.taskCancelled reason) = .ok .cancelled

theorem cancellable_created : Cancellable .created := ⟨rfl, fun _ => rfl⟩

theorem cancellable_queued : Cancellable .queued := ⟨rfl, fun _ => rfl⟩

theorem cancellable_running : Cancellable .running := ⟨rfl, fun _ => rfl⟩

def afterCancel (turns : Turns) (state : TaskState) : TaskState :=
  if turns.cancel.fault = .store then state else .cancelled

/-- **The compensation** cancels the child, unless the store fails. -/
theorem compensation (json : Jsonl.Codec AgentNode) (spawn : SpawnAgentCommand) (e : SpawnError)
    (h : Child ids t.db turns.child state) (hstate : Cancellable state)
    (hunused : Unused t.db turns.cancel) (n : Nat) :
    ∃ db, (runPhase json turns spawn)^[n + 2] (t, .release turns.child.toText e)
        = ({ t with db := db }, .done (.error e)) ∧
      Child ids db turns.child (afterCancel turns state) := by
  obtain ⟨db₁, hrelease, hsame⟩ : ∃ db₁, runPhase json turns spawn (t, .release turns.child.toText e)
      = ({ t with db := db₁ }, .cancel turns.child.toText e) ∧ SameLog t.db db₁ := by
    refine ⟨_, rfl, ?_⟩
    split_ifs
    · exact ⟨rfl, rfl, rfl⟩
    · exact ⟨rfl, rfl, rfl⟩
  have htarget : (CommandPayload.cancelTask turns.child
      "admission failed after task creation").targetAggregate = some turns.child.toText := rfl
  obtain ⟨db₂, hcancel, hchild, -, -⟩ := executeCommand_moves (h.sameLog hsame)
    (hunused.sameLog hsame) rfl rfl htarget rfl (hstate.2 _)
  refine ⟨db₂, ?_, hchild⟩
  have hstep : runPhase json turns spawn ({ t with db := db₁ }, .cancel turns.child.toText e)
      = ({ t with db := db₂ }, .done (.error e)) := by
    show Services.cancelChild _ _ _ turns.cancel = _
    rw [Services.cancelChild, Id.parse_toText]
    simp only [hcancel]
  rw [Function.iterate_succ_apply, hrelease, Function.iterate_succ_apply, hstep, iterate_done]

theorem Drawn.apart_of (h : Drawn s turns) : DrawsApart turns.queue turns.start ∧
    DrawsApart turns.queue turns.cancel ∧ DrawsApart turns.start turns.cancel := by
  have hrest := (pairwise_cons.mp h.apart).2
  have hqueue := (pairwise_cons.mp hrest).1
  have hstart := (pairwise_cons.mp (pairwise_cons.mp hrest).2).1
  exact ⟨hqueue _ mem_cons_self, hqueue _ (mem_cons_of_mem _ mem_cons_self),
    hstart _ mem_cons_self⟩

theorem Drawn.aggregate_ne (h : Drawn s turns) {turn : Turn}
    (hturn : turn ∈ [turns.queue, turns.start, turns.cancel]) :
    turn.oracle.aggregate ≠ turns.child.uuid := fun heq =>
  ((pairwise_cons.mp h.apart).1 turn hturn).aggregate heq.symm

/-- The call has failed, and the child is in the given state. -/
def FailedWith (s : Services) (turns : Turns) (t : Services) (state : TaskState)
    (c : Services × Phase) : Prop :=
  ∃ db e, c = ({ t with db := db }, .done (.error e)) ∧
    Child s.db.projections.taskIds db turns.child state

theorem parseTaskId_toText (child : TaskId) (turn : Turn) :
    Services.parseTaskId child.toText turn = child := by
  rw [Services.parseTaskId, Id.parse_toText]
  rfl

theorem moveChild_eq {text : String} {next : Db → Phase}
    (hexec : executeCommand t.db payload turn
      = (db, if turn.fault = .none then .ok (some text) else .error .fault)) :
    t.moveChild text payload next turn
      = ({ t with db := db }, if turn.fault = .none then next db else .release text .fault) := by
  rw [Services.moveChild, hexec]
  split_ifs <;> rfl

theorem start_phase (json : Jsonl.Codec AgentNode) (spawn : SpawnAgentCommand) (hdrawn : Drawn s turns)
    (h : Child s.db.projections.taskIds t.db turns.child .queued)
    (hstart : Unused t.db turns.start) (hcancel : Unused t.db turns.cancel) :
    (turns.start.fault ≠ .none → ∃ state, Cancellable state ∧
      FailedWith s turns t (afterCancel turns state)
        ((runPhase json turns spawn)^[3] (t, .start turns.child.toText))) ∧
    (turns.start.fault = .none → ∃ db v,
      (runPhase json turns spawn)^[3] (t, .start turns.child.toText)
        = ({ t with db := db }, .done (.ok v))) := by
  have htarget : (CommandPayload.startTask turns.child).targetAggregate
      = some turns.child.toText := rfl
  have haccepts : applyTaskEvent .queued .taskStarted = .ok .running := rfl
  obtain ⟨db, hexec, hchild, -, hunused⟩ :=
    executeCommand_moves h hstart rfl rfl htarget rfl haccepts
  have hstep : runPhase json turns spawn (t, .start turns.child.toText)
      = ({ t with db := db }, if turns.start.fault = .none then
          .done (.ok (taskView db turns.child.toText)) else .release turns.child.toText .fault) := by
    show t.moveChild _ (.startTask (Services.parseTaskId turns.child.toText turns.start)) _ _ = _
    rw [parseTaskId_toText]
    exact moveChild_eq hexec
  rw [Function.iterate_succ_apply, hstep]
  constructor
  · intro hfault
    rw [if_neg hfault]
    have hcancel' := hunused _ hdrawn.apart_of.2.2 (hdrawn.aggregate_ne (by simp)) hcancel
    have hstate : Cancellable (if turns.start.fault = .store then .queued else .running) := by
      split_ifs
      · exact cancellable_queued
      · exact cancellable_running
    obtain ⟨db', hrun, hchild'⟩ := compensation (t := { t with db := db }) json spawn .fault hchild hstate hcancel' 0
    exact ⟨_, hstate, db', .fault, hrun, hchild'⟩
  · intro hfault
    rw [if_pos hfault, iterate_done]
    exact ⟨db, _, rfl⟩

theorem queue_phase (json : Jsonl.Codec AgentNode) (spawn : SpawnAgentCommand) (hdrawn : Drawn s turns)
    (h : Child s.db.projections.taskIds t.db turns.child .created)
    (hunused : ∀ turn ∈ [turns.queue, turns.start, turns.cancel], Unused t.db turn) :
    (Stuck turns → ∃ state, Cancellable state ∧
      FailedWith s turns t (afterCancel turns state)
        ((runPhase json turns spawn)^[4] (t, .queue turns.child.toText))) ∧
    (¬ Stuck turns → ∃ db v,
      (runPhase json turns spawn)^[4] (t, .queue turns.child.toText)
        = ({ t with db := db }, .done (.ok v))) := by
  have htarget : (CommandPayload.queueTask turns.child).targetAggregate
      = some turns.child.toText := rfl
  have haccepts : applyTaskEvent .created .taskQueued = .ok .queued := rfl
  obtain ⟨db, hexec, hchild, -, hkeep⟩ :=
    executeCommand_moves h (hunused turns.queue mem_cons_self) rfl rfl htarget rfl haccepts
  have hstart : Unused db turns.start :=
    hkeep _ hdrawn.apart_of.1 (hdrawn.aggregate_ne (by simp)) (hunused _ (by simp))
  have hcancel : Unused db turns.cancel :=
    hkeep _ hdrawn.apart_of.2.1 (hdrawn.aggregate_ne (by simp)) (hunused _ (by simp))
  have hstep : runPhase json turns spawn (t, .queue turns.child.toText)
      = ({ t with db := db }, if turns.queue.fault = .none then .start turns.child.toText
          else .release turns.child.toText .fault) := by
    show t.moveChild _ (.queueTask (Services.parseTaskId turns.child.toText turns.queue)) _ _ = _
    rw [parseTaskId_toText]
    exact moveChild_eq hexec
  rw [Function.iterate_succ_apply, hstep]
  by_cases hfault : turns.queue.fault = .none
  · rw [if_pos hfault]
    have hqueued : Child s.db.projections.taskIds db turns.child .queued := by
      rw [hfault] at hchild
      exact hchild
    obtain ⟨hfail, hok⟩ := start_phase (t := { t with db := db }) json spawn
      hdrawn hqueued hstart hcancel
    exact ⟨fun hstuck => hfail (hstuck.resolve_left (not_not.mpr hfault)),
      fun hnot => hok (not_not.mp (fun hne => hnot (.inr hne)))⟩
  · refine ⟨fun _ => ?_, fun hnot => absurd (.inl hfault) hnot⟩
    rw [if_neg hfault]
    have hstate : Cancellable (if turns.queue.fault = .store then .created else .queued) := by
      split_ifs
      · exact cancellable_created
      · exact cancellable_queued
    obtain ⟨db', hrun, hchild'⟩ := compensation (t := { t with db := db }) json spawn .fault hchild hstate hcancel 1
    exact ⟨_, hstate, db', .fault, hrun, hchild'⟩

/-- **The phases from the acquisition on.** -/
theorem acquire_phase (json : Jsonl.Codec AgentNode) (hdrawn : Drawn s turns)
    (hparent : spawn.parentTaskId ≠ turns.child.toText) (h : Minted s turns t.db) :
    (Breaks turns s spawn → FailedWith s turns t .created
      ((runPhase json turns spawn)^[5] (t, .acquire turns.child.toText))) ∧
    (¬ Breaks turns s spawn → Conflicts s spawn ∨ Stuck turns → ∃ state, Cancellable state ∧
      FailedWith s turns t (afterCancel turns state)
        ((runPhase json turns spawn)^[5] (t, .acquire turns.child.toText))) ∧
    (¬ Breaks turns s spawn → ¬ Conflicts s spawn → ¬ Stuck turns → ∃ db v,
      (runPhase json turns spawn)^[5] (t, .acquire turns.child.toText)
        = ({ t with db := db }, .done (.ok v))) := by
  have hacq : Acquires t.db (parentRepoKey t.db spawn.parentTaskId) spawn.writeScope
      turns.acquire.statement (acquireUpTo t.db turns.child.toText
        (parentRepoKey t.db spawn.parentTaskId) spawn.writeScope turns.acquire.statement) :=
    acquireUpTo_acquires
  have hstep : runPhase json turns spawn (t, .acquire turns.child.toText)
      = t.acquireScope spawn turns.child.toText turns.acquire := rfl
  rw [Services.acquireScope] at hstep
  generalize acquireUpTo t.db turns.child.toText (parentRepoKey t.db spawn.parentTaskId)
    spawn.writeScope turns.acquire.statement = r at hacq hstep
  obtain ⟨db, answer⟩ := r
  have hchild := h.child.sameLog hacq.same
  have hunused : ∀ turn ∈ [turns.queue, turns.start, turns.cancel], Unused db turn :=
    fun turn hturn => (h.unused turn hturn).sameLog hacq.same
  rw [Function.iterate_succ_apply, hstep]
  refine ⟨fun hbreaks => ?_, fun hnot hfails => ?_, fun hnot hfree hgoes => ?_⟩
  · obtain ⟨e, he⟩ := hacq.broken ((h.broken_iff hdrawn hparent).mpr hbreaks)
    simp only at he
    subst he
    exact ⟨db, e, iterate_done _ _, hchild⟩
  · have hnot' := fun hb => hnot ((h.broken_iff hdrawn hparent).mp hb)
    by_cases hconflict : Conflicts s spawn
    · obtain ⟨holder, path, hd⟩ := hacq.denied hnot' ((h.overlaps_iff hdrawn hparent).mpr hconflict)
      simp only at hd
      subst hd
      obtain ⟨db', hrun, hchild'⟩ := compensation (t := { t with db := db }) json spawn
        (.message ("write-set conflict with " ++ holder ++ ": " ++ path)) hchild cancellable_created
        (hunused turns.cancel (by simp)) 2
      exact ⟨_, cancellable_created, db', _, hrun, hchild'⟩
    · have ha := hacq.acquired hnot' (fun ho => hconflict ((h.overlaps_iff hdrawn hparent).mp ho))
      simp only at ha
      subst ha
      exact (queue_phase (t := { t with db := db }) json spawn hdrawn hchild hunused).1
        (hfails.resolve_left hconflict)
  · have hnot' := fun hb => hnot ((h.broken_iff hdrawn hparent).mp hb)
    have ha := hacq.acquired hnot' (fun ho => hfree ((h.overlaps_iff hdrawn hparent).mp ho))
    simp only at ha
    subst ha
    exact (queue_phase (t := { t with db := db }) json spawn hdrawn hchild hunused).2 hgoes

/-! ### The node of the child -/

theorem rootFor_error_iff {f : AgentFleet} {agentId : String} :
    (∃ e, FleetStore.rootFor f ((f.nodes.find? spawn.parentTaskId).map AgentNode.agentId) agentId
      = .error e) ↔ Orphaned spawn f := by
  constructor
  · rintro ⟨e, he⟩
    cases hparent : f.nodes.find? spawn.parentTaskId with
    | none =>
      rw [hparent] at he
      cases he
    | some n =>
      refine ⟨n, hparent, ?_⟩
      rw [hparent] at he
      cases hnode : f.nodes.find? n.agentId with
      | none => rfl
      | some m =>
        simp only [Option.map_some, FleetStore.rootFor, hnode, okOr_some] at he
        cases he
  · rintro ⟨n, hparent, hnode⟩
    refine ⟨.unknownAgent n.agentId, ?_⟩
    rw [hparent]
    simp only [Option.map_some, FleetStore.rootFor, hnode]
    rfl

/-- What becomes of the fleet when the child's node is recorded. -/
structure Noted (turns : Turns) (spawn : SpawnAgentCommand) (f : FleetStore)
    (r : FleetStore × Reply) : Prop where
  orphaned : Orphaned spawn f.fleet → r.1 = f ∧ ∃ e, r.2 = .err e
  unwritten : ¬ Orphaned spawn f.fleet → f.fleet.journal = true ∧ turns.node.disk ≠ .writes →
    r.1.fleet.nodes = f.fleet.nodes ∧ (∃ e, r.2 = .err e) ∧
      (spawn.idempotencyKey ≠ "" → r.1.fleet.idempotency.find? spawn.idempotencyKey
        = some turns.child.toText)
  written : ¬ Orphaned spawn f.fleet → ¬ (f.fleet.journal = true ∧ turns.node.disk ≠ .writes) →
    ∃ n, r.2 = .node n ∧ r.1.fleet.nodes.find? turns.child.toText = some n ∧
      n.taskId = turns.child.toText ∧ n.status.finished = false

variable {n : AgentNode}

theorem key_registered {f : AgentFleet} (hkey : n.idempotencyKey = Services.key spawn)
    (h : spawn.idempotencyKey ≠ "") : (f.registered n).find? spawn.idempotencyKey = some n.agentId := by
  rw [AgentFleet.registered, hkey, Services.key, if_neg h]
  rw [OrdMap.find?_insert, if_pos rfl]

theorem persistNode_cases (json : Jsonl.Codec AgentNode) (f : AgentFleet) (disk : Disk)
    (file : Option (List UInt8)) (n : AgentNode) :
    (f.journal = true ∧ disk ≠ .writes →
      ∃ file', f.persistNode json disk file n = (file', .error .persistence)) ∧
    (¬ (f.journal = true ∧ disk ≠ .writes) →
      ∃ file', f.persistNode json disk file n = (file', .ok ())) := by
  unfold AgentFleet.persistNode
  split_ifs with hj
  · cases disk with
    | writes => exact ⟨fun h => absurd rfl h.2, fun _ => ⟨_, rfl⟩⟩
    | fails written =>
      have hbad : f.journal = true ∧ Disk.fails written ≠ .writes := ⟨hj, fun h => (by cases h)⟩
      cases written with
      | none => exact ⟨fun _ => ⟨_, rfl⟩, fun h => absurd hbad h⟩
      | some k => exact ⟨fun _ => ⟨_, rfl⟩, fun h => absurd hbad h⟩
  · exact ⟨fun h => absurd h.1 hj, fun _ => ⟨_, rfl⟩⟩

theorem admit_noted (json : Jsonl.Codec AgentNode) (f : FleetStore)
    (hnot : ¬ Orphaned spawn f.fleet) (hagent : n.agentId = turns.child.toText)
    (htask : n.taskId = turns.child.toText) (hstatus : n.status.finished = false)
    (hkey : n.idempotencyKey = Services.key spawn) :
    Noted turns spawn f (f.register json turns.node.disk n) := by
  have hjournal : ({ f.fleet with idempotency := f.fleet.registered n } : AgentFleet).journal
      = f.fleet.journal := rfl
  obtain ⟨hfails, hwrites⟩ := persistNode_cases json
    { f.fleet with idempotency := f.fleet.registered n } turns.node.disk f.file n
  rw [hjournal] at hfails hwrites
  refine ⟨fun h => absurd h hnot, fun _ hbad => ?_, fun _ hgood => ?_⟩
  · obtain ⟨file', hp⟩ := hfails hbad
    rw [FleetStore.register, hp]
    refine ⟨rfl, ⟨_, rfl⟩, fun hne => ?_⟩
    rw [← hagent]
    exact key_registered hkey hne
  · obtain ⟨file', hp⟩ := hwrites hgood
    rw [FleetStore.register, hp]
    refine ⟨n, rfl, ?_, htask, hstatus⟩
    rw [OrdMap.find?_insert, if_pos hagent.symm]

/-- **The node of an unregistered key.** -/
theorem spawnChild_noted (json : Jsonl.Codec AgentNode) (f : FleetStore)
    (hkey : ¬ Registered spawn f.fleet) :
    Noted turns spawn f (f.spawnChild json turns.node.disk
      ((f.fleet.nodes.find? spawn.parentTaskId).map AgentNode.agentId) turns.child.toText
      turns.child.toText spawn.objective (parseScope spawn.writeScope) (Services.key spawn)) := by
  have hnone : (Services.key spawn).bind f.fleet.idempotency.find? = none :=
    Option.not_isSome_iff_eq_none.mp hkey
  rw [FleetStore.spawnChild, FleetStore.spawnWith, hnone]
  cases hroot : FleetStore.rootFor f.fleet
      ((f.fleet.nodes.find? spawn.parentTaskId).map AgentNode.agentId) turns.child.toText with
  | error e =>
    have horphan := rootFor_error_iff.mp ⟨e, hroot⟩
    exact ⟨fun _ => ⟨rfl, e, rfl⟩, fun hnot => absurd horphan hnot, fun hnot => absurd horphan hnot⟩
  | ok root =>
    have hnot : ¬ Orphaned spawn f.fleet := by
      intro horphan
      obtain ⟨e, he⟩ := rootFor_error_iff.mpr horphan
      rw [hroot] at he
      cases he
    exact admit_noted json f hnot rfl rfl rfl rfl

/-! ### What is left -/

theorem undone_iff_terminal (hdrawn : Drawn s turns)
    (hnew : turns.child.toText ∉ s.db.projections.taskIds)
    (h : Child s.db.projections.taskIds db turns.child state) (hfleet : t.fleet = s.fleet) :
    Undone s { t with db := db } spawn ↔ state.terminal = true := by
  rw [← h.terminal_iff hnew]
  refine ⟨fun hu => hu.terminal, fun hterminal => ⟨hterminal, unheld_of_terminal hterminal, ?_, ?_⟩⟩
  · intro f hf id n hn hmem hadded
    rw [h.taskIds] at hmem
    have hchild := mem_singleton.mp ((mem_append.mp hmem).resolve_left hadded)
    exact absurd hchild (hdrawn.nodes f (hfleet ▸ hf) id n hn)
  · intro _ f hf f' hf'
    rw [Option.some.inj (hf.symm.trans (hfleet ▸ hf'))]

variable {f : FleetStore}

theorem not_undone_of_node (hnew : turns.child.toText ∉ s.db.projections.taskIds)
    (h : Child s.db.projections.taskIds db turns.child state) (hfleet : t.fleet = some f)
    (hn : f.fleet.nodes.find? turns.child.toText = some n)
    (htask : n.taskId = turns.child.toText) (hlive : n.status.finished = false) :
    ¬ Undone s { t with db := db } spawn := by
  intro hu
  have hmem : n.taskId ∈ db.projections.taskIds := by
    rw [h.taskIds, htask]
    exact mem_append_right _ mem_cons_self
  have hfinished := hu.unreferred f hfleet _ n hn hmem (htask ▸ hnew)
  rw [hlive] at hfinished
  cases hfinished

theorem undone_iff_keyless (hdrawn : Drawn s turns)
    (hnew : turns.child.toText ∉ s.db.projections.taskIds)
    (h : Child s.db.projections.taskIds db turns.child state) {f f' : FleetStore}
    (hf : s.fleet = some f) (hf' : t.fleet = some f') (hnodes : f'.fleet.nodes = f.fleet.nodes)
    (hkey : spawn.idempotencyKey ≠ "" → f'.fleet.idempotency.find? spawn.idempotencyKey
      = some turns.child.toText) (hfree : ¬ Registered spawn f.fleet) :
    Undone s { t with db := db } spawn ↔ spawn.idempotencyKey = "" ∧ state.terminal = true := by
  rw [← h.terminal_iff hnew]
  constructor
  · intro hu
    refine ⟨?_, hu.terminal⟩
    by_contra hne
    have hsame := hu.afresh hne f hf f' hf'
    rw [hkey hne] at hsame
    refine hfree ?_
    rw [Registered, Services.key, if_neg hne, Option.bind_some, ← hsame]
    rfl
  · rintro ⟨hempty, hterminal⟩
    refine ⟨hterminal, unheld_of_terminal hterminal, ?_, fun hne => absurd hempty hne⟩
    intro f'' hf'' id n hn hmem hadded
    obtain rfl : f' = f'' := Option.some.inj (hf'.symm.trans hf'')
    rw [h.taskIds] at hmem
    have hchild := mem_singleton.mp ((mem_append.mp hmem).resolve_left hadded)
    exact absurd hchild (hdrawn.nodes f hf id n (hnodes ▸ hn))

theorem undone_of_same (hprojections : t.db.projections = s.db.projections) (hfleet : t.fleet = s.fleet) :
    Undone s t spawn := by
  have hterminal : ∀ r ∈ t.db.projections.tasks, r.taskId ∉ s.db.projections.taskIds →
      r.state ∈ TERMINAL_STATES := by
    intro r hr hadded
    rw [hprojections] at hr
    exact absurd (mem_map_of_mem hr) hadded
  refine ⟨hterminal, unheld_of_terminal hterminal, ?_, ?_⟩
  · intro f hf id n hn hmem hadded
    rw [hprojections] at hmem
    exact absurd hmem hadded
  · intro _ f hf f' hf'
    rw [Option.some.inj (hf.symm.trans (hfleet ▸ hf'))]

theorem afterCancel_terminal (hstate : Cancellable state) :
    (afterCancel turns state).terminal = true ↔ turns.cancel.fault ≠ .store := by
  rw [afterCancel]
  split_ifs with hfault
  · rw [hstate.1]
    exact ⟨fun h => (by cases h), fun h => absurd hfault h⟩
  · exact ⟨fun _ => hfault, fun _ => rfl⟩

def Holds (s : Services) (spawn : SpawnAgentCommand) (c : Services × Phase) : Prop :=
  ∀ e, c.2 = .done (.error e) → Undone s c.1 spawn

theorem holds_iff_undone {e : SpawnError} : Holds s spawn (t, .done (.error e)) ↔ Undone s t spawn :=
  ⟨fun h => h e rfl, fun h _ _ => h⟩

theorem holds_ok {v : Option TaskView} : Holds s spawn (t, .done (.ok v)) := fun e he => (by cases he)

theorem holds_panicked : Holds s spawn (t, .panicked) := fun e he => (by cases he)

theorem FailedWith.holds_iff {c : Services × Phase} (h : FailedWith s turns t state c)
    (hdrawn : Drawn s turns) (hnew : turns.child.toText ∉ s.db.projections.taskIds)
    (hfleet : t.fleet = s.fleet) : Holds s spawn c ↔ state.terminal = true := by
  obtain ⟨db, e, rfl, hchild⟩ := h
  rw [holds_iff_undone, undone_iff_terminal hdrawn hnew hchild hfleet]

theorem unfleeted_holds_iff (json : Jsonl.Codec AgentNode) (hdrawn : Drawn s turns)
    (hnew : turns.child.toText ∉ s.db.projections.taskIds)
    (hparent : spawn.parentTaskId ≠ turns.child.toText) (h : Minted s turns t.db)
    (hfleet : t.fleet = s.fleet) :
    Holds s spawn ((runPhase json turns spawn)^[5] (t, .acquire turns.child.toText)) ↔
      ¬ Breaks turns s spawn ∧ (Conflicts s spawn ∨ Stuck turns → turns.cancel.fault ≠ .store) := by
  obtain ⟨hbreaks, hfails, hgoes⟩ := acquire_phase json hdrawn hparent h
  by_cases hb : Breaks turns s spawn
  · rw [(hbreaks hb).holds_iff hdrawn hnew hfleet]
    exact ⟨fun hterminal => (by cases hterminal), fun hsafe => absurd hb hsafe.1⟩
  · by_cases hf : Conflicts s spawn ∨ Stuck turns
    · obtain ⟨state, hstate, hfailed⟩ := hfails hb hf
      rw [hfailed.holds_iff hdrawn hnew hfleet, afterCancel_terminal hstate]
      exact ⟨fun hcancel => ⟨hb, fun _ => hcancel⟩, fun hsafe => hsafe.2 hf⟩
    · obtain ⟨db, v, hrun⟩ := hgoes hb (fun hc => hf (.inl hc)) (fun hs => hf (.inr hs))
      rw [hrun]
      exact iff_of_true holds_ok ⟨hb, fun hc => absurd hc hf⟩

theorem noted_holds_iff (json : Jsonl.Codec AgentNode) (hdrawn : Drawn s turns)
    (hnew : turns.child.toText ∉ s.db.projections.taskIds)
    (hparent : spawn.parentTaskId ≠ turns.child.toText) (h : Minted s turns t.db)
    (hfleet : t.fleet = some f)
    (hn : f.fleet.nodes.find? turns.child.toText = some n) (htask : n.taskId = turns.child.toText)
    (hlive : n.status.finished = false) :
    Holds s spawn ((runPhase json turns spawn)^[5] (t, .acquire turns.child.toText)) ↔
      ¬ Breaks turns s spawn ∧ ¬ Conflicts s spawn ∧ ¬ Stuck turns := by
  obtain ⟨hbreaks, hfails, hgoes⟩ := acquire_phase json hdrawn hparent h
  have hleft : ∀ {state : TaskState} {c : Services × Phase}, FailedWith s turns t state c →
      ¬ Holds s spawn c := by
    rintro state c ⟨db, e, rfl, hchild⟩
    rw [holds_iff_undone]
    exact not_undone_of_node hnew hchild hfleet hn htask hlive
  by_cases hb : Breaks turns s spawn
  · exact iff_of_false (hleft (hbreaks hb)) (fun hsafe => hsafe.1 hb)
  · by_cases hf : Conflicts s spawn ∨ Stuck turns
    · obtain ⟨state, -, hfailed⟩ := hfails hb hf
      exact iff_of_false (hleft hfailed) (fun hsafe => hf.elim hsafe.2.1 hsafe.2.2)
    · obtain ⟨db, v, hrun⟩ := hgoes hb (fun hc => hf (.inl hc)) (fun hs => hf (.inr hs))
      rw [hrun]
      exact iff_of_true holds_ok ⟨hb, fun hc => hf (.inl hc), fun hs => hf (.inr hs)⟩

theorem iterate_panicked (n : Nat) :
    (runPhase json turns spawn)^[n] (t, .panicked) = (t, .panicked) := Function.iterate_fixed rfl n

theorem recordNode_none (hfleet : t.fleet = none) (child : String) :
    t.recordNode spawn json child turn = (t, .acquire child) := by
  rw [Services.recordNode, hfleet]

theorem recordNode_poisoned (json : Jsonl.Codec AgentNode) (spawn : SpawnAgentCommand)
    (turn : Turn) (hfleet : t.fleet = some f) (hpoisoned : t.poisoned = true)
    (child : String) : ∃ e, t.recordNode spawn json child turn = (t, .release child e) := by
  rw [Services.recordNode, hfleet]
  exact ⟨_, if_pos hpoisoned⟩

theorem recordNode_some (hfleet : t.fleet = some f) (hpoisoned : t.poisoned = false)
    (child : String) :
    t.recordNode spawn json child turn = t.afterNode child (f.spawnChild json turn.disk
      ((f.fleet.nodes.find? spawn.parentTaskId).map AgentNode.agentId) child child spawn.objective
      (parseScope spawn.writeScope) (Services.key spawn)) := by
  rw [Services.recordNode, hfleet]
  exact if_neg (Bool.eq_false_iff.mp hpoisoned)

theorem lookup_unfound (hfleet : s.fleet = some f) (hkey : spawn.idempotencyKey ≠ "")
    (h : s.lookup spawn = .parent) : findByIdempotencyKey f.fleet spawn.idempotencyKey = none := by
  rw [Services.lookup, if_neg hkey, hfleet] at h
  by_cases hparent : spawn.parentTaskId = ""
  · rw [if_pos hparent] at h
    cases h
  · rw [if_neg hparent] at h
    cases hpoisoned : s.poisoned with
    | true =>
      rw [hpoisoned] at h
      cases h
    | false =>
      cases hnode : findByIdempotencyKey f.fleet spawn.idempotencyKey with
      | none => rfl
      | some n =>
        rw [hpoisoned] at h
        simp only [hnode] at h
        cases h

theorem spawnChild_panics (hfleet : s.fleet = some f)
    (hlookup : s.lookup spawn = .parent) (hkey : Registered spawn f.fleet) (disk : Disk)
    (parentAgent : Option String) (child : String) :
    f.spawnChild json disk parentAgent child child spawn.objective (parseScope spawn.writeScope)
      (Services.key spawn) = (f, .panicked) := by
  obtain ⟨existing, hexisting⟩ := Option.isSome_iff_exists.mp hkey
  have hne : spawn.idempotencyKey ≠ "" := by
    intro hempty
    rw [Services.key, if_pos hempty] at hexisting
    cases hexisting
  have hid : f.fleet.idempotency.find? spawn.idempotencyKey = some existing := by
    rw [Services.key, if_neg hne] at hexisting
    exact hexisting
  have hmissing : f.fleet.nodes.find? existing = none := by
    have hunfound := lookup_unfound hfleet hne hlookup
    rw [findByIdempotencyKey, hid] at hunfound
    exact hunfound
  rw [FleetStore.spawnChild, FleetStore.spawnWith, hexisting]
  simp only [hmissing]

theorem fleeted_holds_iff (json : Jsonl.Codec AgentNode) (hdrawn : Drawn s turns)
    (hnew : turns.child.toText ∉ s.db.projections.taskIds)
    (hparent : spawn.parentTaskId ≠ turns.child.toText) (h : Minted s turns t.db)
    (hfleet : s.fleet = some f) (hkey : ¬ Registered spawn f.fleet) {r : FleetStore × Reply}
    (hnoted : Noted turns spawn f r) :
    Holds s spawn ((runPhase json turns spawn)^[5] (t.afterNode turns.child.toText r)) ↔
      (Orphaned spawn f.fleet → turns.cancel.fault ≠ .store) ∧
        (¬ Orphaned spawn f.fleet →
          ((f.fleet.journal = true ∧ turns.node.disk ≠ .writes) →
            spawn.idempotencyKey = "" ∧ turns.cancel.fault ≠ .store) ∧
          (¬ (f.fleet.journal = true ∧ turns.node.disk ≠ .writes) →
            ¬ Breaks turns s spawn ∧ ¬ Conflicts s spawn ∧ ¬ Stuck turns)) := by
  have hcancel : Unused t.db turns.cancel := h.unused turns.cancel (by simp)
  obtain ⟨f', reply⟩ := r
  have hrelease : ∀ e, ∃ db', (runPhase json turns spawn)^[5]
      ({ t with fleet := some f' }, .release turns.child.toText e)
        = ({ t with fleet := some f', db := db' }, .done (.error e)) ∧
      Child s.db.projections.taskIds db' turns.child (afterCancel turns .created) :=
    fun e => compensation (t := { t with fleet := some f' }) json spawn e h.child
      cancellable_created hcancel 3
  by_cases horphan : Orphaned spawn f.fleet
  · obtain ⟨hsame, e, he⟩ := hnoted.orphaned horphan
    simp only at hsame he
    subst hsame he
    obtain ⟨db', hrun, hchild⟩ := hrelease (.node e)
    rw [Services.afterNode, hrun, holds_iff_undone,
      undone_iff_terminal (t := { t with fleet := some f' }) hdrawn hnew hchild hfleet.symm,
      afterCancel_terminal cancellable_created]
    exact ⟨fun hstore => ⟨fun _ => hstore, fun hnot => absurd horphan hnot⟩,
      fun hsafe => hsafe.1 horphan⟩
  · by_cases hbad : f.fleet.journal = true ∧ turns.node.disk ≠ .writes
    · obtain ⟨hnodes, ⟨e, he⟩, hregistered⟩ := hnoted.unwritten horphan hbad
      simp only at hnodes he hregistered
      subst he
      obtain ⟨db', hrun, hchild⟩ := hrelease (.node e)
      rw [Services.afterNode, hrun, holds_iff_undone,
        undone_iff_keyless (t := { t with fleet := some f' }) hdrawn hnew hchild hfleet rfl hnodes
          hregistered hkey, afterCancel_terminal cancellable_created]
      exact ⟨fun hsafe => ⟨fun ho => absurd ho horphan, fun _ => ⟨fun _ => hsafe,
        fun hgood => absurd hbad hgood⟩⟩, fun hsafe => (hsafe.2 horphan).1 hbad⟩
    · obtain ⟨n, hn, hfind, htask, hlive⟩ := hnoted.written horphan hbad
      simp only at hn hfind
      subst hn
      have hgoes : t.afterNode turns.child.toText (f', .node n)
          = ({ t with fleet := some f' }, .acquire turns.child.toText) := rfl
      rw [hgoes, noted_holds_iff (t := { t with fleet := some f' }) json hdrawn hnew
        hparent h rfl hfind htask hlive]
      exact ⟨fun hsafe => ⟨fun ho => absurd ho horphan, fun _ => ⟨fun hb => absurd hb hbad,
        fun _ => hsafe⟩⟩, fun hsafe => (hsafe.2 horphan).2 hbad⟩

/-- **The phases from the fleet on.** -/
theorem node_holds_iff (json : Jsonl.Codec AgentNode) (hdrawn : Drawn s turns)
    (hnew : turns.child.toText ∉ s.db.projections.taskIds)
    (hparent : spawn.parentTaskId ≠ turns.child.toText) (hlookup : s.lookup spawn = .parent)
    (h : Minted s turns t.db) (ht : t = { s with db := t.db }) :
    Holds s spawn ((runPhase json turns spawn)^[6] (t, .node turns.child.toText)) ↔
      Recovers turns s spawn := by
  have hstep : runPhase json turns spawn (t, .node turns.child.toText)
      = t.recordNode spawn json turns.child.toText turns.node := rfl
  have hcancel : Unused t.db turns.cancel := h.unused turns.cancel (by simp)
  have htfleet : t.fleet = s.fleet := by rw [ht]
  have htpoisoned : t.poisoned = s.poisoned := by rw [ht]
  rw [Function.iterate_succ_apply, hstep, Recovers]
  cases hfleet : s.fleet with
  | none =>
    rw [recordNode_none (htfleet.trans hfleet)]
    exact unfleeted_holds_iff json hdrawn hnew hparent h htfleet
  | some f =>
    have hsome := htfleet.trans hfleet
    cases hpoisoned : s.poisoned with
    | true =>
      obtain ⟨e, he⟩ := recordNode_poisoned json spawn turns.node hsome
        (htpoisoned.trans hpoisoned) turns.child.toText
      obtain ⟨db', hrun, hchild⟩ := compensation json spawn e h.child cancellable_created hcancel 3
      rw [he, hrun, holds_iff_undone, undone_iff_terminal hdrawn hnew hchild htfleet,
        afterCancel_terminal cancellable_created]
      exact ⟨fun hstore => ⟨fun _ => hstore, fun hf => (by cases hf)⟩, fun hsafe => hsafe.1 rfl⟩
    | false =>
      rw [recordNode_some hsome (htpoisoned.trans hpoisoned)]
      by_cases hkey : Registered spawn f.fleet
      · rw [spawnChild_panics hfleet hlookup hkey, Services.afterNode, iterate_panicked]
        exact iff_of_true holds_panicked ⟨fun hf => (by cases hf), fun _ hnot => absurd hkey hnot⟩
      · rw [fleeted_holds_iff json hdrawn hnew hparent h hfleet hkey
          (spawnChild_noted json f hkey)]
        exact ⟨fun hsafe => ⟨fun hf => (by cases hf), fun _ _ => hsafe⟩, fun hsafe => hsafe.2 rfl hkey⟩

/-! ### Whole calls -/

theorem lookup_cases (s : Services) (spawn : SpawnAgentCommand) :
    s.lookup spawn = .parent ∨ ∃ r, s.lookup spawn = .done r := by
  unfold Services.lookup
  by_cases hparent : spawn.parentTaskId = ""
  · exact .inr ⟨_, if_pos hparent⟩
  · rw [if_neg hparent]
    by_cases hkey : spawn.idempotencyKey = ""
    · exact .inl (if_pos hkey)
    · rw [if_neg hkey]
      cases s.fleet with
      | none => exact .inl rfl
      | some f =>
        cases s.poisoned with
        | true => exact .inr ⟨_, rfl⟩
        | false =>
          dsimp only
          cases findByIdempotencyKey f.fleet spawn.idempotencyKey with
          | none => exact .inl rfl
          | some n => exact .inr ⟨_, rfl⟩

theorem checkParent_cases (s : Services) (spawn : SpawnAgentCommand) :
    (∃ session, s.checkParent spawn = .count session ∧
      spawn.parentTaskId ∈ s.db.projections.taskIds) ∨ ∃ r, s.checkParent spawn = .done r := by
  rw [Services.checkParent]
  cases hrow : taskRow s.db spawn.parentTaskId with
  | none => exact .inr ⟨_, rfl⟩
  | some row =>
    have hmem : spawn.parentTaskId ∈ s.db.projections.taskIds := by
      rw [taskRow] at hrow
      have hid : row.taskId = spawn.parentTaskId := by simpa using find?_some hrow
      exact hid ▸ mem_map_of_mem (mem_of_find?_eq_some hrow)
    dsimp only
    split_ifs
    · exact .inr ⟨_, rfl⟩
    · exact .inr ⟨_, rfl⟩
    · exact .inl ⟨_, rfl, hmem⟩

theorem checkCount_cases (s : Services) (spawn : SpawnAgentCommand) (session : String) :
    s.checkCount spawn session = .create session ∨ ∃ r, s.checkCount spawn session = .done r := by
  rw [Services.checkCount]
  split_ifs
  · exact .inr ⟨_, rfl⟩
  · exact .inl rfl

theorem holds_unchanged (r : Except SpawnError (Option TaskView)) : Holds s spawn (s, .done r) :=
  fun _ _ => undone_of_same rfl rfl

theorem create_unminted (spawn : SpawnAgentCommand) (hdrawn : Drawn s turns)
    (h : ¬ (0 < countEvents s.db sessionId.toText ∧ sessionId.toText ∈ s.db.projections.sessionIds
      ∧ turns.create.fault ≠ .store)) :
    ∃ db e, executeCommand s.db (Services.createPayload spawn sessionId) turns.create
      = (db, .error e) ∧ db.projections = s.db.projections := by
  by_cases hfault : turns.create.fault = .store
  · exact ⟨_, _, executeCommand_store hfault, rfl⟩
  · have hu : Unseen s.db (turns.create.command (Services.createPayload spawn sessionId)) :=
      (hdrawn.unused turns.create mem_cons_self).2
    obtain ⟨hsame, reason, hrejected⟩ := createTask_refused (o := turns.create.oracle) hu rfl
      (fun hok => h ⟨hok.1, hok.2, hfault⟩)
    refine ⟨_, .rejected reason, ?_, hsame⟩
    have hpair : execute s.db (turns.create.command (Services.createPayload spawn sessionId))
        turns.create.oracle = (_, .ok (.rejected reason)) := Prod.ext rfl hrejected
    unfold Turn.command at hpair
    rw [executeCommand, if_neg hfault, hpair]
    rfl

theorem spawnAgent_checks (json : Jsonl.Codec AgentNode) (turns : Turns) (s : Services)
    (spawn : SpawnAgentCommand) :
    (∃ r, spawnAgent json turns s spawn = (s, .done r) ∧ ¬ Admitted turns s spawn) ∨
      ∃ session, s.lookup spawn = .parent ∧ s.checkParent spawn = .count session ∧
        s.checkCount spawn session = .create session ∧
          spawn.parentTaskId ∈ s.db.projections.taskIds ∧
            spawnAgent json turns s spawn = (runPhase json turns spawn)^[7] (s, .create session) := by
  have hlookup : runPhase json turns spawn (s, .lookup) = (s, s.lookup spawn) := rfl
  have hparent : runPhase json turns spawn (s, .parent) = (s, s.checkParent spawn) := rfl
  have hcount : ∀ session, runPhase json turns spawn (s, .count session)
      = (s, s.checkCount spawn session) := fun _ => rfl
  rw [spawnAgent, Function.iterate_succ_apply, hlookup]
  rcases lookup_cases s spawn with hl | ⟨r, hl⟩
  · rw [hl, Function.iterate_succ_apply, hparent]
    rcases checkParent_cases s spawn with ⟨session, hp, hmem⟩ | ⟨r, hp⟩
    · rw [hp, Function.iterate_succ_apply, hcount]
      rcases checkCount_cases s spawn session with hc | ⟨r, hc⟩
      · rw [hc]
        exact .inr ⟨session, rfl, rfl, hc, hmem, rfl⟩
      · refine .inl ⟨r, by rw [hc, iterate_done], ?_⟩
        rintro ⟨-, session', hp', hc', -⟩
        obtain rfl : session = session' := Phase.count.inj (hp.symm.trans hp')
        cases hc.symm.trans hc'
    · refine .inl ⟨r, by rw [hp, iterate_done], ?_⟩
      rintro ⟨-, session, hp', -⟩
      cases hp.symm.trans hp'
  · refine .inl ⟨r, by rw [hl, iterate_done], ?_⟩
    rintro ⟨hl', -⟩
    cases hl.symm.trans hl'

variable {session : String}

theorem admitted_iff (hl : s.lookup spawn = .parent)
    (hp : s.checkParent spawn = .count session) (hc : s.checkCount spawn session = .create session) :
    Admitted turns s spawn ↔ ∃ sessionId : SessionId, Id.parse session = some sessionId ∧
      0 < countEvents s.db sessionId.toText ∧
        sessionId.toText ∈ s.db.projections.sessionIds ∧ turns.create.fault ≠ .store := by
  constructor
  · rintro ⟨-, session', hp', -, hcreated⟩
    obtain rfl : session = session' := Phase.count.inj (hp.symm.trans hp')
    exact hcreated
  · intro hcreated
    exact ⟨hl, session, hp, hc, hcreated⟩

theorem create_error {e : SpawnError} (hsession : Id.parse session = some sessionId)
    (hexec : executeCommand s.db (Services.createPayload spawn sessionId) turn = (db, .error e)) :
    s.create spawn session turn = ({ s with db := db }, .done (.error e)) := by
  rw [Services.create, hsession]
  simp only [hexec]

theorem create_ok {session child : String} (hsession : Id.parse session = some sessionId)
    (hexec : executeCommand s.db (Services.createPayload spawn sessionId) turn
      = (db, .ok (some child))) :
    s.create spawn session turn = ({ s with db := db }, .node child) := by
  rw [Services.create, hsession]
  simp only [hexec]

theorem created_holds_iff (json : Jsonl.Codec AgentNode) (hdrawn : Drawn s turns)
    (hnew : turns.child.toText ∉ s.db.projections.taskIds)
    (hmem : spawn.parentTaskId ∈ s.db.projections.taskIds) (hlookup : s.lookup spawn = .parent)
    (hid : Id.parse session = some sessionId) (hstore : turns.create.fault ≠ .store)
    (hexec : executeCommand s.db (Services.createPayload spawn sessionId) turns.create
      = (db, if turns.create.fault = .none then .ok (some turns.child.toText) else .error .fault))
    (hminted : Minted s turns db) :
    Holds s spawn ((runPhase json turns spawn)^[6] (s.create spawn session turns.create)) ↔
      Compensated turns s spawn := by
  have hparent : spawn.parentTaskId ≠ turns.child.toText := fun heq => hnew (heq ▸ hmem)
  cases hfault : turns.create.fault with
  | store => exact absurd hfault hstore
  | none =>
    rw [hfault, if_pos rfl] at hexec
    rw [create_ok hid hexec, node_holds_iff json hdrawn hnew hparent hlookup hminted rfl,
      Compensated, hfault]
    exact ⟨fun h => ⟨fun hf => (by cases hf), h⟩, And.right⟩
  | lookup =>
    rw [hfault, if_neg (fun hf => (by cases hf))] at hexec
    rw [create_error hid hexec, iterate_done, holds_iff_undone,
      undone_iff_terminal hdrawn hnew hminted.child rfl, Compensated, hfault]
    exact iff_of_false (fun hterminal => (by cases hterminal)) (fun h => h.1 rfl)

section Calls

variable (json : Jsonl.Codec AgentNode) {ops : List Op} (hdb : s.db = Db.after ops)
  (hdrawn : Drawn s turns)

include hdrawn

theorem unadmitted_holds (hnot : ¬ Admitted turns s spawn) :
    Holds s spawn (spawnAgent json turns s spawn) := by
  rcases spawnAgent_checks json turns s spawn with ⟨r, hrun, -⟩ | ⟨session, hl, hp, hc, -, hrun⟩
  · rw [hrun]
    exact holds_unchanged r
  · have hstep : runPhase json turns spawn (s, .create session)
        = s.create spawn session turns.create := rfl
    rw [admitted_iff hl hp hc] at hnot
    rw [hrun, Function.iterate_succ_apply, hstep]
    cases hid : (Id.parse session : Option SessionId) with
    | none =>
      have hcreate : s.create spawn session turns.create = (s, .done (.error .session)) := by
        rw [Services.create, hid]
      rw [hcreate, iterate_done]
      exact holds_unchanged _
    | some sessionId =>
      obtain ⟨db, e, hexec, hkept⟩ := create_unminted spawn hdrawn
        (fun htakes => hnot ⟨sessionId, hid, htakes⟩)
      rw [create_error hid hexec, iterate_done]
      exact fun _ _ => undone_of_same hkept rfl

include hdb

theorem admitted_holds_iff (hadmitted : Admitted turns s spawn) :
    Holds s spawn (spawnAgent json turns s spawn) ↔ Compensated turns s spawn := by
  have hg : GaplessLog s.db.events := hdb ▸ after_gapless ops
  have hk : KeysLogged s.db.events s.db.projections := hdb ▸ after_keysLogged ops
  have hstored : ∃ es : List EventEnvelope, s.db.events = es.map EventEnvelope.storedRow :=
    ⟨_, by rw [hdb, after_events]⟩
  rcases spawnAgent_checks json turns s spawn with ⟨r, -, hnot⟩ | ⟨session, hl, hp, hc, hmem, hrun⟩
  · exact absurd hadmitted hnot
  · have hstep : runPhase json turns spawn (s, .create session)
        = s.create spawn session turns.create := rfl
    obtain ⟨sessionId, hid, hcount, hsession, hfault⟩ := (admitted_iff hl hp hc).mp hadmitted
    obtain ⟨db, hexec, hminted⟩ := create_minted hg hstored hk hdrawn spawn hcount hsession hfault
    rw [hrun, Function.iterate_succ_apply, hstep,
      created_holds_iff json hdrawn (hdrawn.child_new hk) hmem hl hid hfault hexec hminted]

end Calls

/-- **A failed call has left nothing behind** if and only if no child was created, or the failure is
one of those that are compensated. -/
theorem undone_iff (json : Jsonl.Codec AgentNode) (turns : Turns) (s : Services)
    (spawn : SpawnAgentCommand) (ops : List Op) (hdb : s.db = Db.after ops) (hdrawn : Drawn s turns) :
    (∀ e, (spawnAgent json turns s spawn).2 = .done (.error e) →
      Undone s (spawnAgent json turns s spawn).1 spawn) ↔
        (Admitted turns s spawn → Compensated turns s spawn) := by
  show Holds s spawn _ ↔ _
  by_cases hadmitted : Admitted turns s spawn
  · rw [admitted_holds_iff json hdb hdrawn hadmitted]
    exact ⟨fun h _ => h, fun h => h hadmitted⟩
  · exact iff_of_true (unadmitted_holds json hdrawn hadmitted) (fun h => absurd h hadmitted)

end Phases

/-! ### A child whose scope is taken -/

/-- A session with a running parent and another task, which has declared a scope. -/
def familyOps : List Op :=
  (sampleCalls [.createSession "s", .createTask ⟨.ofNat 0⟩ "parent" "prompt" none none none,
    .queueTask ⟨.ofNat 3⟩, .startTask ⟨.ofNat 3⟩,
    .createTask ⟨.ofNat 0⟩ "other" "prompt" none none none]).map Call.op
  ++ [.acquireScope (Id.toText (⟨.ofNat 12⟩ : TaskId)) "default" "src/"]

def sampleTurn (n : Nat) : Turn := ⟨toString n, sampleOracle n, .none, none, .writes⟩

def sampleTurns : Turns where
  create := sampleTurn 10
  node := sampleTurn 11
  acquire := sampleTurn 12
  queue := sampleTurn 13
  start := sampleTurn 14
  release := sampleTurn 15
  cancel := sampleTurn 16

/-- A child whose scope overlaps the one that is held. -/
def overlappingSpawn : SpawnAgentCommand where
  parentTaskId := Id.toText (⟨.ofNat 3⟩ : TaskId)
  objective := "subtask"
  writeScope := "src/lib.rs"
  idempotencyKey := "key"
  parentGeneration := 0

def familyServices (fleet : Option FleetStore) : Services :=
  ⟨Db.after familyOps, fleet, false, 4⟩

def emptyFleet : FleetStore := ⟨.new, none⟩

def familyEval (fleet : Option FleetStore) : Services :=
  ⟨run evalStep Db.empty familyOps, fleet, false, 4⟩

theorem familyServices_eq (fleet : Option FleetStore) : familyServices fleet = familyEval fleet := by
  rw [familyServices, Db.after, step_eq]
  rfl

instance {db : Db} {turn : Turn} : Decidable (Unused db turn) :=
  inferInstanceAs (Decidable (_ ∧ _))

instance {turn turn' : Turn} : Decidable (DrawsApart turn turn') :=
  decidable_of_iff (turn.commandId ≠ turn'.commandId ∧
    turn.oracle.aggregate ≠ turn'.oracle.aggregate ∧
    turn.oracle.first.eventId ≠ turn'.oracle.first.eventId ∧
    turn.oracle.first.eventId ≠ turn'.oracle.second.eventId)
    ⟨fun h => ⟨h.1, h.2.1, h.2.2.1, h.2.2.2⟩, fun h => ⟨h.1, h.2, h.3, h.4⟩⟩

theorem familyEval_facts :
    (∀ turn ∈ [sampleTurns.create, sampleTurns.queue, sampleTurns.start, sampleTurns.cancel],
      Unused (run evalStep Db.empty familyOps) turn) ∧
    sampleTurns.child.toText ∉ (run evalStep Db.empty familyOps).taskWriteScopes.map
      WriteScopeRow.taskId ∧
    (familyEval none).checkParent overlappingSpawn
      = .count (Id.toText (⟨.ofNat 0⟩ : SessionId)) ∧
    (familyEval none).checkCount overlappingSpawn (Id.toText (⟨.ofNat 0⟩ : SessionId))
      = .create (Id.toText (⟨.ofNat 0⟩ : SessionId)) ∧
    0 < countEvents (run evalStep Db.empty familyOps) (Id.toText (⟨.ofNat 0⟩ : SessionId)) ∧
    Id.toText (⟨.ofNat 0⟩ : SessionId)
      ∈ (run evalStep Db.empty familyOps).projections.sessionIds ∧
    (findConflict (heldScopes (releaseTerminal (run evalStep Db.empty familyOps))
      (parentRepoKey (run evalStep Db.empty familyOps) overlappingSpawn.parentTaskId))
      (parseScope overlappingSpawn.writeScope)).isSome = true := by
  decide +kernel

theorem drawn_sample {fleet : Option FleetStore} (hempty : ∀ f ∈ fleet, f = emptyFleet) :
    Drawn (familyServices fleet) sampleTurns := by
  obtain ⟨hunused, hscopes, -⟩ := familyEval_facts
  rw [familyServices_eq, familyEval]
  refine ⟨hunused, by decide +kernel, hscopes, fun f hf id n hn => ?_⟩
  rw [hempty f hf] at hn
  cases hn

theorem admitted_sample (fleet : Option FleetStore) (hempty : ∀ f ∈ fleet, f = emptyFleet) :
    Admitted sampleTurns (familyServices fleet) overlappingSpawn := by
  obtain ⟨-, -, hparent, hcount, hevents, hsession, -⟩ := familyEval_facts
  rw [familyServices_eq]
  refine ⟨?_, _, hparent, hcount, ⟨.ofNat 0⟩, Id.parse_toText _, hevents, hsession,
    fun h => (by cases h)⟩
  cases fleet with
  | none => rfl
  | some f =>
    rw [hempty f rfl]
    rfl

theorem conflicts_sample (fleet : Option FleetStore) :
    Conflicts (familyServices fleet) overlappingSpawn := by
  obtain ⟨-, -, -, -, -, -, hconflict⟩ := familyEval_facts
  rw [familyServices_eq, familyEval]
  exact ⟨by decide +kernel, hconflict⟩

/-- Without a fleet the failed call is undone. -/
theorem undone_iff_unfleeted :
    Drawn (familyServices none) sampleTurns ∧
      Admitted sampleTurns (familyServices none) overlappingSpawn ∧
      Conflicts (familyServices none) overlappingSpawn ∧
      (∀ e, (spawnAgent nodeJson sampleTurns (familyServices none) overlappingSpawn).2
          = .done (.error e) →
        Undone (familyServices none)
          (spawnAgent nodeJson sampleTurns (familyServices none) overlappingSpawn).1
          overlappingSpawn) := by
  have hdrawn : Drawn (familyServices none) sampleTurns := drawn_sample (fun f hf => (by cases hf))
  refine ⟨hdrawn, admitted_sample none (fun f hf => (by cases hf)), conflicts_sample none, ?_⟩
  rw [undone_iff nodeJson sampleTurns _ overlappingSpawn familyOps rfl hdrawn]
  intro _
  refine ⟨fun h => (by cases h), ?_, fun _ h => (by cases h)⟩
  rintro ⟨-, n, hn, -⟩
  cases hn

/-- With a fleet the node of the cancelled child is left. -/
theorem not_undone_overlapping :
    Drawn (familyServices (some emptyFleet)) sampleTurns ∧
      ¬ ∀ e, (spawnAgent nodeJson sampleTurns (familyServices (some emptyFleet)) overlappingSpawn).2
          = .done (.error e) →
        Undone (familyServices (some emptyFleet))
          (spawnAgent nodeJson sampleTurns (familyServices (some emptyFleet)) overlappingSpawn).1
          overlappingSpawn := by
  have hempty : ∀ f ∈ some emptyFleet, f = emptyFleet := fun f hf => (Option.some.inj hf).symm
  have hdrawn := drawn_sample hempty
  refine ⟨hdrawn, fun hall => ?_⟩
  have hdb : (familyServices (some emptyFleet)).db = Db.after familyOps := rfl
  obtain ⟨-, -, hrecovers⟩ :=
    (admitted_holds_iff nodeJson hdb hdrawn (admitted_sample _ hempty)).mp hall
  have hsafe := hrecovers rfl (fun h => (by cases h))
  have horphan : ¬ Orphaned overlappingSpawn emptyFleet.fleet := fun ⟨n, hn, _⟩ => (by cases hn)
  exact ((hsafe.2 horphan).2 (fun h => (by cases h.1))).2.1 (conflicts_sample _)

end Fleet

end Modbit
