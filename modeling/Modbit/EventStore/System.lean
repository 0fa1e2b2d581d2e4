import Modbit.EventStore.Execution
import Modbit.EventStore.WriteScopes
import Modbit.Lib.Run

/-!
# The store as a state machine

The calls that write the database, in any order: the two append paths, commands,
and the lease and scope registries.  All of them hold the connection's lock for
their whole length, so an interleaving of callers is a list of calls.

`run_sequences` is the main result on the event log.  In every reachable
database every stream counts `1, 2, …, n`; an append writes its batch or nothing,
an applied command writes its plan; and no call alters or removes a row.
-/

namespace Modbit

open Lib List

inductive Op where
  | append (events : List EventEnvelope)
  | appendWithLease (sessionId leaseId : String) (events : List EventEnvelope)
  | execute (command : Command) (o : Oracle)
  | acquireLease (sessionId leaseId owner now : String)
  | acquireScope (taskId repoKey scopeSpec : String)
  | releaseScope (taskId : String)

inductive Reply where
  | appended (r : Except StoreError Unit)
  | executed (r : Except StoreError Outcome)
  | leased (lease : Lease)
  | scoped (r : WriteScopes.AcquireOutcome)
  | released

def step (db : Db) : Op → Db × Reply
  | .append events => (append db events).map id .appended
  | .appendWithLease sessionId leaseId events =>
    (appendWithLease db sessionId leaseId events).map id .appended
  | .execute command o => (execute db command o).map id .executed
  | .acquireLease sessionId leaseId owner now =>
    (Leases.acquire db sessionId leaseId owner now).map id .leased
  | .acquireScope taskId repoKey scopeSpec =>
    (WriteScopes.acquire db taskId repoKey scopeSpec).map id .scoped
  | .releaseScope taskId => (WriteScopes.release db taskId, .released)

theorem fst_step_execute (db : Db) (command : Command) (o : Oracle) :
    (step db (.execute command o)).1 = (execute db command o).1 := rfl

/-- The database after a list of calls on a fresh one. -/
def Db.after (ops : List Op) : Db := run step .empty ops

theorem after_concat (ops : List Op) (op : Op) :
    Db.after (ops ++ [op]) = (step (Db.after ops) op).1 := by
  rw [Db.after, run_append]
  rfl

/-! ### What a call adds to the log -/

variable {db : Db} {command : Command} {o : Oracle} {es : List EventEnvelope}

theorem commit_gapless {payload : CommandPayload}
    (hg : GaplessLog db.events) (hs : stage db o payload = .ok es) (k : Nat) :
    GaplessLog (db.commit (es.take k)).events := by
  have hc := (stage_continues hg hs).take k
  rw [← map_take] at hc
  exact hg.append hc

/-- What a call did to the log and the projections: some envelopes went in. -/
structure Extended (db : Db) (es : List EventEnvelope) (db' : Db) : Prop where
  events : db'.events = db.events ++ es.map EventEnvelope.storedRow
  projections : db'.projections = lenient project db.projections es
  gapless : GaplessLog db'.events
  verified : ∀ e ∈ es, e.verifyIntegrity = true

variable {db' : Db}

theorem extended_nil (hg : GaplessLog db.events) (he : db'.events = db.events)
    (hp : db'.projections = db.projections) : Extended db [] db' :=
  ⟨by rw [he, map_nil, append_nil], hp, he ▸ hg, by simp⟩

theorem Written.extended (h : Written db es db') : Extended db es db' :=
  ⟨by rw [h.eq], by rw [h.eq], h.gapless, h.verified⟩

theorem Extended.withLog (h : Extended db es db')
    (row : CommandLogRow) : Extended db es (db'.withLog row) :=
  ⟨h.events, h.projections, h.gapless, h.verified⟩

def acceptedBatch (events : List EventEnvelope) : Except StoreError Unit → List EventEnvelope
  | .ok _ => events
  | .error _ => []

variable {r : Db × Except StoreError Unit}

theorem AllOrNothing.extended (hg : GaplessLog db.events) (h : AllOrNothing db es r) :
    Extended db (acceptedBatch es r.2) r.1 := by
  rcases h with ⟨hok, hw⟩ | ⟨⟨x, hx⟩, hdb⟩
  · rw [hok]
    exact hw.extended
  · rw [hx]
    exact extended_nil hg (by rw [hdb]) (by rw [hdb])

/-- The envelopes a command wrote: the first part of its plan that is in the log
afterwards. -/
def acceptedPlan (db : Db) (command : Command) (o : Oracle) : List EventEnvelope :=
  match stage db o command.payload with
  | .ok es => es.take ((execute db command o).1.events.length - db.events.length)
  | .error _ => []

theorem commit_extended {payload : CommandPayload}
    (hg : GaplessLog db.events) (hs : stage db o payload = .ok es) (k : Nat) :
    Extended db (es.take k) (db.commit (es.take k)) := by
  have hcore : ∀ e ∈ es.take k, Core e :=
    fun e he => (stage_ok hs).1.core e (mem_of_mem_take he)
  refine ⟨?_, rfl, commit_gapless hg hs k, fun e he => (hcore e he).verified⟩
  rw [Db.commit, map_commandRow hcore]

theorem take_added (db : Db) (es : List EventEnvelope) (k : Nat) (row : CommandLogRow) :
    es.take (((db.commit (es.take k)).withLog row).events.length - db.events.length)
      = es.take k := by
  have hlen : ((db.commit (es.take k)).withLog row).events.length - db.events.length
      = (es.take k).length := by
    simp [Db.commit, Db.withLog]
  rw [hlen, length_take, ← take_eq_take_min]

theorem execute_extended (hg : GaplessLog db.events) :
    Extended db (acceptedPlan db command o) (execute db command o).1 := by
  have hres := execute_result db command o
  rw [acceptedPlan]
  generalize execute db command o = r at hres
  cases hres with
  | seen _ =>
    have hnone : ∀ es : List EventEnvelope, es.take (db.events.length - db.events.length) = [] := by
      simp
    cases stage db o command.payload with
    | error _ => exact extended_nil hg rfl rfl
    | ok es =>
      simp only [hnone]
      exact extended_nil hg rfl rfl
  | refused _ hs =>
    rw [hs]
    exact extended_nil hg rfl rfl
  | @applied es _ hs _ =>
    have h := commit_extended hg hs es.length
    have hk := take_added db es es.length (logRow command o (.ok (es.map EventEnvelope.eventId)))
    rw [take_length] at h hk
    simp only [hs, hk]
    exact h.withLog _
  | @stopped es k x _ hs _ _ =>
    have h := commit_extended hg hs k
    simp only [hs, take_added]
    exact h.withLog _

def accepted (db : Db) : Op → List EventEnvelope
  | .append events => acceptedBatch events (append db events).2
  | .appendWithLease sessionId leaseId events =>
    acceptedBatch events (appendWithLease db sessionId leaseId events).2
  | .execute command o => acceptedPlan db command o
  | .acquireLease _ _ _ _ | .acquireScope _ _ _ | .releaseScope _ => []

/-- **Every call extends the log by the envelopes it accepted**, and replays them
into the projections. -/
theorem step_extended (hg : GaplessLog db.events) (op : Op) :
    Extended db (accepted db op) (step db op).1 := by
  cases op with
  | append es => exact (append_allOrNothing hg es).extended hg
  | appendWithLease s l es => exact (appendWithLease_allOrNothing hg s l es).extended hg
  | execute c o => exact execute_extended hg
  | acquireLease s l w n => exact extended_nil hg rfl rfl
  | acquireScope t r p =>
    obtain ⟨he, hp, _⟩ := WriteScopes.acquire_frame db t r p
    exact extended_nil hg he hp
  | releaseScope t => exact extended_nil hg rfl rfl

/-! ### The registries -/

/-- The lease and scope tables are the same. -/
def SameRegistries (db db' : Db) : Prop :=
  db'.sessionLeases = db.sessionLeases ∧ db'.taskWriteScopes = db.taskWriteScopes

theorem AllOrNothing.sameRegistries (h : AllOrNothing db es r) : SameRegistries db r.1 := by
  rcases h with ⟨_, hw⟩ | ⟨_, hdb⟩
  · rw [hw.eq]
    exact ⟨rfl, rfl⟩
  · rw [hdb]
    exact ⟨rfl, rfl⟩

theorem execute_sameRegistries (db : Db) (command : Command) (o : Oracle) :
    SameRegistries db (execute db command o).1 := by
  have hres := execute_result db command o
  generalize execute db command o = r at hres
  cases hres with
  | seen _ => exact ⟨rfl, rfl⟩
  | refused _ _ => exact ⟨rfl, rfl⟩
  | applied _ _ _ => exact ⟨rfl, rfl⟩
  | stopped _ _ _ _ => exact ⟨rfl, rfl⟩

theorem after_gapless (ops : List Op) : GaplessLog (Db.after ops).events :=
  (path_run Db.empty ops).invariant (I := fun db : Db => GaplessLog db.events) gapless_nil
    (fun _ op hg _ => (step_extended hg op).gapless)

def written (db : Db) : List Op → List EventEnvelope
  | [] => []
  | op :: ops => accepted db op ++ written (step db op).1 ops

/-- **The log is what was written, the projections are its replay.** -/
theorem run_written (ops : List Op) : ∀ {db : Db}, GaplessLog db.events →
    Extended db (written db ops) (run step db ops) := by
  induction ops with
  | nil => intro db hg; exact extended_nil hg rfl rfl
  | cons op ops ih =>
    intro db hg
    have hstep := step_extended hg op
    have hrest := ih hstep.gapless
    rw [written, run_cons]
    refine ⟨?_, ?_, hrest.gapless, ?_⟩
    · rw [hrest.events, hstep.events, map_append, append_assoc]
    · rw [hrest.projections, hstep.projections, lenient_append]
    · intro e he
      rcases mem_append.mp he with he | he
      · exact hstep.verified e he
      · exact hrest.verified e he

theorem after_events (ops : List Op) :
    (Db.after ops).events = (written .empty ops).map EventEnvelope.storedRow :=
  (run_written ops gapless_nil).events

theorem after_projections (ops : List Op) :
    (Db.after ops).projections = lenient project .empty (written .empty ops) :=
  (run_written ops gapless_nil).projections

/-! ### The keys of the projections -/

/-- Every key of a projection table is the key of an event. -/
structure KeysLogged (events : List EventRow) (p : Projections) : Prop where
  sessions : ∀ id ∈ p.sessionIds, id ∈ events.map EventRow.aggregateId
  tasks : ∀ id ∈ p.taskIds, id ∈ events.map EventRow.aggregateId
  inputs : ∀ r ∈ p.taskInputs,
    (r.taskId, r.sequence) ∈ events.map (fun r => (r.aggregateId, r.sequence))

variable {e : EventEnvelope}

theorem createdSession_mem {id : String} (h : id ∈ createdSession e) : id = e.aggregateId := by
  unfold createdSession at h
  split at h
  · exact mem_singleton.mp h
  · cases h

theorem createdTask_mem {id : String} (h : id ∈ createdTask e) : id = e.aggregateId := by
  unfold createdTask at h
  split at h
  · exact mem_singleton.mp h
  · cases h

theorem queuedInput_mem {r : TaskInputRow} (h : r ∈ queuedInput e) :
    r.taskId = e.aggregateId ∧ r.sequence = e.sequence := by
  unfold queuedInput at h
  split at h
  · rw [mem_singleton.mp h]
    exact ⟨rfl, rfl⟩
  · cases h

theorem KeysLogged.mono {events more : List EventRow} {p : Projections} (h : KeysLogged events p) :
    KeysLogged (events ++ more) p := by
  refine ⟨fun id hid => ?_, fun id hid => ?_, fun r hr => ?_⟩
  · rw [map_append]
    exact mem_append_left _ (h.sessions id hid)
  · rw [map_append]
    exact mem_append_left _ (h.tasks id hid)
  · rw [map_append]
    exact mem_append_left _ (h.inputs r hr)

theorem KeysLogged.concat {events : List EventRow} {p : Projections} (h : KeysLogged events p)
    (e : EventEnvelope) :
    KeysLogged (events ++ [e.storedRow]) (applyOrKeep project p e) := by
  have hm : KeysLogged (events ++ [e.storedRow]) p := h.mono
  cases hp : project p e with
  | error x =>
    rw [applyOrKeep_error hp]
    exact hm
  | ok p' =>
    rw [applyOrKeep_ok hp]
    obtain ⟨hs, ht, hi⟩ := project_keys hp
    refine ⟨fun id hid => ?_, fun id hid => ?_, fun r hr => ?_⟩
    · rcases mem_append.mp (hs ▸ hid) with hid | hid
      · exact hm.sessions id hid
      · simp [createdSession_mem hid, EventEnvelope.storedRow, EventEnvelope.row]
    · rcases mem_append.mp (ht ▸ hid) with hid | hid
      · exact hm.tasks id hid
      · simp [createdTask_mem hid, EventEnvelope.storedRow, EventEnvelope.row]
    · rcases mem_append.mp (hi ▸ hr) with hr | hr
      · exact hm.inputs r hr
      · obtain ⟨h1, h2⟩ := queuedInput_mem hr
        simp [h1, h2, EventEnvelope.storedRow, EventEnvelope.row]

theorem keysLogged_lenient (es : List EventEnvelope) : ∀ {events : List EventRow} {p : Projections},
    KeysLogged events p →
    KeysLogged (events ++ es.map EventEnvelope.storedRow) (lenient project p es) := by
  induction es with
  | nil => intro events p h; rw [map_nil, append_nil]; exact h
  | cons e es ih =>
    intro events p h
    have := ih (h.concat e)
    rwa [append_assoc, singleton_append] at this

/-- **The projections of a reachable store have no key of their own.** -/
theorem after_keysLogged (ops : List Op) :
    KeysLogged (Db.after ops).events (Db.after ops).projections := by
  have hnil : KeysLogged [] .empty :=
    ⟨fun _ h => absurd h (by simp [Projections.empty, Projections.sessionIds]),
      fun _ h => absurd h (by simp [Projections.empty, Projections.taskIds]),
      fun _ h => absurd h (by simp [Projections.empty])⟩
  have h := keysLogged_lenient (written .empty ops) hnil
  rwa [nil_append, ← after_events, ← after_projections] at h

/-! ### Runs of commands -/

def Call.op (call : Call) : Op := .execute call.1 call.2

/-- The database after a list of commands on a fresh one. -/
def Db.afterCalls (calls : List Call) : Db := run executeCall .empty calls

theorem run_executeCall (calls : List Call) : ∀ db : Db,
    run executeCall db calls = run step db (calls.map Call.op) := by
  induction calls with
  | nil => intro db; rfl
  | cons call calls ih => intro db; exact ih _

theorem afterCalls_eq (calls : List Call) : Db.afterCalls calls = Db.after (calls.map Call.op) :=
  run_executeCall calls .empty

theorem afterCalls_eval (calls : List Call) : Db.afterCalls calls = run evalCall .empty calls := by
  rw [Db.afterCalls, executeCall_eq]

/-- A call, evaluated without computing the hashes of a plan. -/
def evalStep (db : Db) : Op → Db × Reply
  | .execute command o => (evalCall db (command, o)).map id .executed
  | op => step db op

theorem step_eq : step = evalStep := by
  funext db op
  cases op with
  | execute command o => rw [step, evalStep, execute_eq_evalCall]
  | _ => rfl

theorem acceptedPlan_core (he : e ∈ acceptedPlan db command o) : Core e := by
  rw [acceptedPlan] at he
  cases hs : stage db o command.payload with
  | error x => simp [hs] at he
  | ok es =>
    rw [hs] at he
    exact (stage_ok hs).1.core e (mem_of_mem_take he)

theorem written_core (calls : List Call) : ∀ {db : Db},
    ∀ e ∈ written db (calls.map Call.op), Core e := by
  induction calls with
  | nil => intro db e he; cases he
  | cons call calls ih =>
    intro db e he
    rcases mem_append.mp he with he | he
    · exact acceptedPlan_core he
    · exact ih e he

/-! ### Sequences -/

/-- An append that succeeds adds its batch in order, one that fails changes
nothing. -/
def WritesBatch (db : Db) (es : List EventEnvelope) (r : Db × Except StoreError Unit) : Prop :=
  match r.2 with
  | .ok _ => r.1.events = db.events ++ es.map EventEnvelope.storedRow
  | .error _ => r.1 = db

/-- A command that is applied adds its plan in order and answers with the ids of
its events; a replayed one changes nothing; a rejected one adds at most a first
part of its plan. -/
def WritesPlan (db : Db) (command : Command) (o : Oracle)
    (r : Db × Except StoreError Outcome) : Prop :=
  match r.2 with
  | .ok (.applied ids) =>
    ∃ es, stage db o command.payload = .ok es ∧ ids = es.map EventEnvelope.eventId ∧
      r.1.events = db.events ++ es.map EventEnvelope.storedRow
  | .ok (.replayed _) => r.1 = db
  | .ok (.rejected _) =>
    r.1.events = db.events ∨ ∃ es k, stage db o command.payload = .ok es ∧
      r.1.events = db.events ++ (es.take k).map EventEnvelope.storedRow
  | .error _ => False

def CallWrites (db : Db) : Op → Prop
  | .append es => WritesBatch db es (append db es)
  | .appendWithLease s l es => WritesBatch db es (appendWithLease db s l es)
  | .execute c o => WritesPlan db c o (execute db c o)
  | op => (step db op).1.events = db.events

theorem AllOrNothing.writesBatch (h : AllOrNothing db es r) : WritesBatch db es r := by
  rw [WritesBatch]
  rcases h with ⟨hok, hw⟩ | ⟨⟨x, hx⟩, hdb⟩
  · rw [hok, hw.eq]
  · rw [hx]
    exact hdb

theorem recordedOutcome_cases (row : CommandLogRow) :
    (∃ ids, recordedOutcome row = .replayed ids) ∨ (∃ x, recordedOutcome row = .rejected x) := by
  rw [recordedOutcome]
  split
  · exact Or.inl ⟨_, rfl⟩
  · exact Or.inr ⟨_, rfl⟩

theorem execute_writesPlan (hg : GaplessLog db.events) :
    WritesPlan db command o (execute db command o) := by
  have hres := execute_result db command o
  generalize execute db command o = r at hres
  cases hres with
  | @seen row _ =>
    rw [WritesPlan]
    rcases recordedOutcome_cases row with ⟨ids, h⟩ | ⟨x, h⟩
    · simp only [h]
    · simp only [h]
      exact Or.inl trivial
  | refused _ _ => exact Or.inl rfl
  | @applied es _ hs _ =>
    have h := commit_extended hg hs es.length
    rw [take_length] at h
    exact ⟨es, hs, rfl, h.events⟩
  | @stopped es k _ _ hs _ _ => exact Or.inr ⟨es, k, hs, (commit_extended hg hs k).events⟩

theorem step_callWrites (hg : GaplessLog db.events) (op : Op) : CallWrites db op := by
  cases op with
  | append es => exact (append_allOrNothing hg es).writesBatch
  | appendWithLease s l es => exact (appendWithLease_allOrNothing hg s l es).writesBatch
  | execute c o => exact execute_writesPlan hg
  | acquireLease s l w n => rfl
  | acquireScope t r p => exact (WriteScopes.acquire_frame db t r p).1
  | releaseScope t => rfl

/-- **Gapless, append-only and all-or-nothing, over every run.**  After any list of
calls every aggregate's events are numbered `1, 2, …, n` in log order; and the next
call, whatever it is, keeps every row and adds exactly the envelopes it accepts. -/
theorem run_sequences (ops : List Op) :
    (∀ aggregateId, (EventRow.streamOf aggregateId (Db.after ops).events).map EventRow.sequence
        = List.range' 1 (EventRow.streamOf aggregateId (Db.after ops).events).length) ∧
      ∀ op, (Db.after ops).events <+: (Db.after (ops ++ [op])).events ∧
        CallWrites (Db.after ops) op := by
  have hg := after_gapless ops
  refine ⟨hg, fun op => ⟨?_, step_callWrites hg op⟩⟩
  rw [after_concat, (step_extended hg op).events]
  exact prefix_append _ _

end Modbit
