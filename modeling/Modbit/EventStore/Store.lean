import Modbit.EventStore.Leases
import Modbit.EventStore.Projections
import Modbit.Lib.Fallible
import Modbit.Lib.Text

/-!
# The event store

`crates/event-store/src/store.rs`: the two append paths and the readers.
`appendLoop` is the loop both append paths run inside their transaction, with the
map of the numbers handed out in the batch; `transact` commits or drops it.

`appendLoop_ok` is the specification of the loop: when it ends, the batch is
`Written`.  `append_allOrNothing` and `appendWithLease_allOrNothing` carry it to the
two calls: a call writes its whole batch or leaves the database as it was.
`reconstructEnvelope_row` says what reading a written row gives back: the envelope
with its four optional identities replaced by those `aggregateIds` derives.
-/

namespace Modbit

open Lib

/-! ### Writing one event -/

def schemaVersionText (v : UInt32 × UInt32) : String :=
  String.ofList (Nat.toDigits 10 v.1.toNat ++ '.' :: Nat.toDigits 10 v.2.toNat)

namespace EventEnvelope

/-- The row written for an envelope.  The four optional identities have no
column. -/
def row (version : UInt32 × UInt32) (e : EventEnvelope) : EventRow where
  eventId := e.eventId
  sessionId := e.sessionId.toText
  aggregateType := e.aggregateType.asStr
  aggregateId := e.aggregateId
  sequence := e.sequence
  eventType := e.eventType
  schemaVersion := schemaVersionText version
  occurredAt := e.occurredAt
  actorType := e.actor.actorType.asStr
  actorId := e.actor.actorId
  causationId := e.causationId
  correlationId := e.correlationId
  payloadInline := e.payload.toJson
  payloadObjectHash := e.payloadObjectHash
  integrityHash := e.integrityHash

/-- The row `insert_event` writes. -/
def storedRow (e : EventEnvelope) : EventRow := e.row e.schemaVersion

end EventEnvelope

def insertEvent (tx : Db) (e : EventEnvelope) : Except StoreError Db := do
  refuseIf (e.verifyIntegrity = false) (.integrityMismatch e.eventId)
  (insertEventRow tx e.storedRow).mapError .sqlite

/-- `project` inside a transaction. -/
def projectInto (tx : Db) (e : EventEnvelope) : Except SqliteError Db :=
  (project tx.projections e).map (fun p => { tx with projections := p })

/-! ### Appending a batch -/

/-- The loop over a batch inside the transaction `tx`; `sequences` maps an
aggregate to the number its next event must carry. -/
def appendLoop (tx : Db) (sequences : List (String × Nat)) :
    List EventEnvelope → Except StoreError Db
  | [] => .ok tx
  | e :: es => do
    let expected := (sequences.lookup e.aggregateId).getD (nextSequence tx e.aggregateId)
    refuseIf (e.sequence ≠ expected)
      (.sequenceConflict e.aggregateId e.sequence (nextSequence tx e.aggregateId))
    let inserted ← insertEvent tx e
    let projected ← (projectInto inserted e).mapError .sqlite
    appendLoop projected ((e.aggregateId, expected + 1) :: sequences) es

/-- The end of a transaction: it is committed, or dropped with the error. -/
def transact (db : Db) : Except StoreError Db → Db × Except StoreError Unit
  | .ok tx => (tx, .ok ())
  | .error e => (db, .error e)

def append (db : Db) (events : List EventEnvelope) : Db × Except StoreError Unit :=
  if events = [] then (db, .ok ()) else transact db (appendLoop db [] events)

def appendWithLease (db : Db) (sessionId leaseId : String) (events : List EventEnvelope) :
    Db × Except StoreError Unit :=
  if events = [] then (db, .ok ())
  else if Leases.isCurrent db sessionId leaseId = false then
    (db, .error (.staleLease sessionId leaseId))
  else transact db (appendLoop db [] events)

/-! ### Reading -/

/-- The optional identities of an envelope as the reader derives them. -/
structure EnvelopeIds where
  taskId : Option TaskId := none
  runId : Option RunId := none
  turnId : Option TurnId := none
  stepId : Option RunStepId := none
deriving DecidableEq

def aggregateIds (aggregateType : AggregateType) (aggregateId : String) :
    Except StoreError EnvelopeIds :=
  match aggregateType with
  | .task => do return { taskId := some (← okOr (Id.parse aggregateId) .uuid) }
  | .run => do return { runId := some (← okOr (Id.parse aggregateId) .uuid) }
  | .turn => do return { turnId := some (← okOr (Id.parse aggregateId) .uuid) }
  | .runStep => do return { stepId := some (← okOr (Id.parse aggregateId) .uuid) }
  | .session => .ok {}

def reconstructEnvelope (r : EventRow) : Except StoreError EventEnvelope := do
  let aggregateType ← okOr (AggregateType.ofTag r.aggregateType)
    (.io ("unknown aggregate_type " ++ r.aggregateType))
  let ids ← aggregateIds aggregateType r.aggregateId
  let (major, minor) ← okOr (Text.splitOnce '.' r.schemaVersion.toList)
    (.io ("bad schema_version " ++ r.schemaVersion))
  let payload ← okOr (DomainEvent.fromJson r.payloadInline) (.integrityMismatch r.eventId)
  let sessionId ← okOr (Id.parse r.sessionId) .uuid
  let major ← okOr (Text.parseU32 major) .parseInt
  let minor ← okOr (Text.parseU32 minor) .parseInt
  let actorType ← okOr (ActorType.parse r.actorType) (.io ("bad actor_type " ++ r.actorType))
  return {
    eventId := r.eventId, sessionId := sessionId, taskId := ids.taskId, runId := ids.runId,
    turnId := ids.turnId, stepId := ids.stepId, aggregateType := aggregateType,
    aggregateId := r.aggregateId, sequence := r.sequence, eventType := r.eventType,
    schemaVersion := (major, minor), occurredAt := r.occurredAt,
    actor := ⟨actorType, r.actorId⟩, causationId := r.causationId,
    correlationId := r.correlationId, payload := payload,
    payloadObjectHash := r.payloadObjectHash, integrityHash := r.integrityHash }

def load (db : Db) (aggregateId : String) : Except StoreError (List EventEnvelope) :=
  (selectAggregate db aggregateId).mapM reconstructEnvelope

/-- The loop of `verify_stream`, `idx` events in. -/
def verifyFrom (aggregateId : String) : Nat → List EventEnvelope → Except StoreError Unit
  | _, [] => .ok ()
  | idx, e :: es =>
    if e.sequence ≠ idx + 1 then .error (.sequenceConflict aggregateId (idx + 1) e.sequence)
    else if e.verifyIntegrity = false then .error (.integrityMismatch e.eventId)
    else verifyFrom aggregateId (idx + 1) es

def verifyStream (db : Db) (aggregateId : String) : Except StoreError Unit := do
  let events ← load db aggregateId
  verifyFrom aggregateId 0 events

/-- `WHERE … AND rowid > ?`, in rowid order, each row with its rowid.  Rowids
count from one: no row is ever deleted. -/
def selectSince (db : Db) (keep : EventRow → Bool) (afterOffset : Int) :
    List (EventRow × Nat) :=
  (db.events.zipIdx 1).filter (fun r => keep r.1 && decide (afterOffset < r.2))

/-- `LIMIT`: a negative limit is no limit. -/
def limitTo {α : Type} (limit : Int) (rows : List α) : List α :=
  if limit < 0 then rows else rows.take limit.toNat

/-- The last rowid read, the given offset when there was none. -/
def lastOffset (afterOffset : Nat) (rows : List (EventRow × Nat)) : Nat :=
  (rows.getLast?.map Prod.snd).getD afterOffset

def sessionEventsSince (db : Db) (sessionId : String) (afterOffset limit : Nat) :
    Except StoreError (List EventEnvelope × Nat) := do
  let rows := limitTo (asI64 limit)
    (selectSince db (fun r => r.sessionId = sessionId) (asI64 afterOffset))
  let out ← rows.mapM (fun r => do
    let envelope ← reconstructEnvelope r.1
    return { envelope with payloadObjectHash := none })
  return (out, lastOffset afterOffset rows)

def eventsSinceGlobal (db : Db) (afterOffset limit : Nat) :
    Except StoreError (List EventEnvelope × Nat) := do
  let rows := limitTo (asI64 limit) (selectSince db (fun _ => true) (asI64 afterOffset))
  let out ← rows.mapM (fun r => reconstructEnvelope r.1)
  return (out, lastOffset afterOffset rows)

/-- The event ids a rewind to `toSequence` would supersede. -/
def previewRewind (db : Db) (sessionId : String) (toSequence : Nat) :
    Except StoreError (List String) :=
  ((selectAggregate db sessionId).filter (fun r => asI64 toSequence < r.sequence)).mapM (fun r =>
    if (r.sequence : Int) ≤ asI64 toSequence then
      .error (.sequenceConflict sessionId toSequence r.sequence)
    else .ok r.eventId)

/-! ### What the loop does -/

variable {tx tx' : Db} {e : EventEnvelope}

theorem projectInto_ok (h : projectInto tx e = .ok tx') :
    ∃ p, project tx.projections e = .ok p ∧ tx' = { tx with projections := p } := by
  rw [projectInto] at h
  obtain ⟨p, hp, rfl⟩ := map_eq_ok.mp h
  exact ⟨p, hp, rfl⟩

theorem insertEvent_ok (h : insertEvent tx e = .ok tx') :
    e.verifyIntegrity = true ∧ tx' = { tx with events := tx.events ++ [e.storedRow] } := by
  rw [insertEvent] at h
  obtain ⟨_, hv, h⟩ := bind_eq_ok.mp h
  have hv' := refuseIf_eq_ok.mp hv
  exact ⟨by simpa using hv', insertEventRow_ok (ok_of_mapError _ h)⟩

def Db.extend (tx : Db) (r : EventRow) (p : Projections) : Db :=
  { tx with events := tx.events ++ [r], projections := p }

theorem appendLoop_cons {sequences : List (String × Nat)}
    {es : List EventEnvelope} (h : appendLoop tx sequences (e :: es) = .ok tx') :
    e.sequence = (sequences.lookup e.aggregateId).getD (nextSequence tx e.aggregateId) ∧
      e.verifyIntegrity = true ∧
      ∃ p, project tx.projections e = .ok p ∧
        appendLoop (tx.extend e.storedRow p) ((e.aggregateId, e.sequence + 1) :: sequences) es
          = .ok tx' := by
  rw [appendLoop] at h
  obtain ⟨_, hseq, h⟩ := bind_eq_ok.mp h
  obtain ⟨inserted, hi, h⟩ := bind_eq_ok.mp h
  obtain ⟨projected, hp, h⟩ := bind_eq_ok.mp h
  have hseq' := not_not.mp (refuseIf_eq_ok.mp hseq)
  obtain ⟨hv, rfl⟩ := insertEvent_ok hi
  obtain ⟨p, hproj, rfl⟩ := projectInto_ok (ok_of_mapError _ hp)
  rw [← hseq'] at h
  exact ⟨hseq', hv, p, hproj, h⟩

theorem appendLoop_single {p : Projections}
    (hg : GaplessLog tx.events) (hseq : e.sequence = nextSequence tx e.aggregateId)
    (hid : e.eventId ∉ tx.events.map EventRow.eventId) (hv : e.verifyIntegrity = true)
    (hp : project tx.projections e = .ok p) :
    appendLoop tx [] [e] = .ok (tx.extend e.storedRow p) := by
  have hrow : insertEventRow tx e.storedRow
      = .ok { tx with events := tx.events ++ [e.storedRow] } := insertEventRow_next hg hid hseq
  have hexpected : refuseIf (e.sequence ≠ nextSequence tx e.aggregateId)
      (StoreError.sequenceConflict e.aggregateId e.sequence (nextSequence tx e.aggregateId))
      = .ok () := refuseIf_eq_ok.mpr (not_not.mpr hseq)
  have hinsert : insertEvent tx e = .ok { tx with events := tx.events ++ [e.storedRow] } := by
    have hpass : refuseIf (e.verifyIntegrity = false) (StoreError.integrityMismatch e.eventId)
        = .ok () := refuseIf_eq_ok.mpr (by simp [hv])
    rw [insertEvent, hpass, ok_bind, hrow]
    rfl
  rw [appendLoop, List.lookup_nil, Option.getD_none, hexpected, ok_bind, hinsert, ok_bind,
    projectInto, hp]
  rfl

/-- A committed batch: the log has grown by the rows of the batch in order and is
gapless, every envelope verified, and the projections are the replay of the
batch, in which nothing was refused. -/
structure Written (db : Db) (es : List EventEnvelope) (db' : Db) : Prop where
  eq : db' = { db with events := db.events ++ es.map EventEnvelope.storedRow,
                       projections := lenient project db.projections es }
  gapless : GaplessLog db'.events
  verified : ∀ e ∈ es, e.verifyIntegrity = true
  clean : Clean project db.projections es

/-- **When the loop ends the batch is written.**  The map of numbers handed out
stays in step with the log inside the transaction. -/
theorem appendLoop_ok : ∀ {es : List EventEnvelope} {tx tx' : Db}
    {sequences : List (String × Nat)}, GaplessLog tx.events →
    Tracks EventRow.aggregateId EventRow.sequence sequences tx.events tx.events →
    appendLoop tx sequences es = .ok tx' → Written tx es tx' := by
  intro es
  induction es with
  | nil =>
    intro tx tx' sequences hg _ h
    rw [appendLoop] at h
    cases h
    refine ⟨?_, hg, by simp, trivial⟩
    rw [List.map_nil, List.append_nil, lenient_nil]
  | cons e es ih =>
    intro tx tx' sequences hg ht h
    obtain ⟨hseq, hv, p, hp, hrest⟩ := appendLoop_cons h
    have hnext : e.storedRow.sequence =
        nextSeq EventRow.aggregateId EventRow.sequence e.storedRow.aggregateId tx.events :=
      hseq.trans (ht e.aggregateId)
    have hg' : GaplessLog (tx.extend e.storedRow p).events := hg.concat hnext
    have hw := ih hg' (ht.concat_self hg hnext) hrest
    have hkeep : applyOrKeep project tx.projections e = p := applyOrKeep_ok hp
    refine ⟨?_, hw.gapless, ?_, ⟨⟨p, hp⟩, hkeep ▸ hw.clean⟩⟩
    · rw [hw.eq, lenient_cons, hkeep]
      simp [Db.extend]
    · intro e' he'
      rcases List.mem_cons.mp he' with rfl | hmem
      · exact hv
      · exact hw.verified e' hmem

variable {db : Db}

theorem written_nil (hg : GaplessLog db.events) : Written db [] db :=
  appendLoop_ok hg tracks_nil rfl

/-- A call that appends either wrote its whole batch or left the database as it
was. -/
def AllOrNothing (db : Db) (es : List EventEnvelope) (r : Db × Except StoreError Unit) : Prop :=
  (r.2 = .ok () ∧ Written db es r.1) ∨ ((∃ x, r.2 = .error x) ∧ r.1 = db)

theorem transact_allOrNothing (hg : GaplessLog db.events) (es : List EventEnvelope) :
    AllOrNothing db es (transact db (appendLoop db [] es)) := by
  cases h : appendLoop db [] es with
  | ok tx => exact Or.inl ⟨rfl, appendLoop_ok hg tracks_nil h⟩
  | error x => exact Or.inr ⟨⟨x, rfl⟩, rfl⟩

theorem append_allOrNothing (hg : GaplessLog db.events) (es : List EventEnvelope) :
    AllOrNothing db es (append db es) := by
  rw [append]
  split
  · next he =>
    subst he
    exact Or.inl ⟨rfl, written_nil hg⟩
  · exact transact_allOrNothing hg es

theorem appendWithLease_allOrNothing (hg : GaplessLog db.events)
    (sessionId leaseId : String) (es : List EventEnvelope) :
    AllOrNothing db es (appendWithLease db sessionId leaseId es) := by
  rw [appendWithLease]
  split
  · next he =>
    subst he
    exact Or.inl ⟨rfl, written_nil hg⟩
  · split
    · exact Or.inr ⟨⟨_, rfl⟩, rfl⟩
    · exact transact_allOrNothing hg es

/-! ### Reading a written row -/

namespace EventEnvelope

def ids (e : EventEnvelope) : EnvelopeIds := ⟨e.taskId, e.runId, e.turnId, e.stepId⟩

def withIds (e : EventEnvelope) (ids : EnvelopeIds) : EventEnvelope :=
  { e with taskId := ids.taskId, runId := ids.runId, turnId := ids.turnId, stepId := ids.stepId }

theorem withIds_eq_iff {e : EventEnvelope} {ids : EnvelopeIds} :
    e.withIds ids = e ↔ ids = e.ids := by
  obtain ⟨t, r, u, s⟩ := ids
  cases e
  simp [withIds, EventEnvelope.ids]

end EventEnvelope

theorem splitOnce_schemaVersionText (v : UInt32 × UInt32) :
    Text.splitOnce '.' (schemaVersionText v).toList
      = some (Nat.toDigits 10 v.1.toNat, Nat.toDigits 10 v.2.toNat) := by
  rw [schemaVersionText, String.toList_ofList]
  exact Text.splitOnce_append _ _ (Text.not_mem_toDigits (by decide) _)

/-- **What is read is the envelope with derived identities.**  Every column
decodes; the identities are those of the aggregate, whatever was written. -/
theorem reconstructEnvelope_row (h : e.payload.Faithful) (v : UInt32 × UInt32) :
    reconstructEnvelope (e.row v) =
      (aggregateIds e.aggregateType e.aggregateId).map
        (fun ids => { e.withIds ids with schemaVersion := v }) := by
  have hp : DomainEvent.fromJson e.payload.toJson = some e.payload :=
    DomainEvent.fromJson_toJson e.payload h
  rw [reconstructEnvelope]
  simp only [EventEnvelope.row, AggregateType.ofTag_asStr, okOr_some, ok_bind,
    splitOnce_schemaVersionText, hp, Id.parse_toText, Text.parseU32_toDigits, ActorType.parse_asStr]
  cases aggregateIds e.aggregateType e.aggregateId <;> rfl

theorem reconstructEnvelope_storedRow (h : e.payload.Faithful) : reconstructEnvelope e.storedRow =
      (aggregateIds e.aggregateType e.aggregateId).map e.withIds :=
  reconstructEnvelope_row h e.schemaVersion

end Modbit
