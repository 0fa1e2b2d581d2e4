import Modbit.Domain.Serde
import Modbit.Lib.Sha256

/-!
# The event envelope

`EventEnvelope` of `crates/domain/src/events.rs`.  Its integrity hash is the
SHA-256 of the canonical serialization, which is the JSON of the envelope with an
empty hash: absent optional fields are left out, everything else is written in
declaration order.

`verifyIntegrity_sealed` says a sealed envelope verifies.  `fromJson` is the
derived reader of the whole envelope; `fromJson_domainEvent` says it refuses the
JSON of a domain event, which has no field `event_id`.
-/

namespace Modbit

open Lib

def SCHEMA_VERSION : UInt32 × UInt32 := (1, 0)

structure EventEnvelope where
  eventId : String
  sessionId : SessionId
  taskId : Option TaskId
  runId : Option RunId
  turnId : Option TurnId
  stepId : Option RunStepId
  aggregateType : AggregateType
  aggregateId : String
  sequence : Nat
  eventType : String
  schemaVersion : UInt32 × UInt32
  occurredAt : String
  actor : Actor
  causationId : Option String
  correlationId : Option String
  payload : DomainEvent
  payloadObjectHash : Option String
  integrityHash : String
deriving DecidableEq

/-! ### Serialization -/

/-- A field left out when there is no value (`skip_serializing_if`). -/
def optField (name : String) : Option Json → List (String × Json)
  | none => []
  | some j => [(name, j)]

namespace Actor

def toJson (a : Actor) : Json :=
  .obj [("actor_type", .str a.actorType.asStr), ("actor_id", .str a.actorId)]

def fromJson (j : Json) : Option Actor := do
  return ⟨← (DomainEvent.str j "actor_type").bind ActorType.parse, ← DomainEvent.str j "actor_id"⟩

end Actor

def AggregateType.ofTag (s : String) : Option AggregateType :=
  [session, task, run, turn, runStep].find? (fun t => t.asStr = s)

@[simp] theorem AggregateType.ofTag_asStr (t : AggregateType) : ofTag t.asStr = some t := by
  cases t <;> decide

theorem AggregateType.asStr_inj {s t : AggregateType} (h : s.asStr = t.asStr) : s = t := by
  have := ofTag_asStr s
  rw [h, ofTag_asStr] at this
  exact (Option.some.inj this).symm

@[simp] theorem ActorType.parse_asStr (t : ActorType) : parse t.asStr = some t := by
  cases t <;> decide

/-- An optional identity: absent or `null` when there is none. -/
def optId {kind : IdKind} (j : Json) (name : String) : Option (Option (Id kind)) :=
  match j.field name with
  | none => some none
  | some .null => some none
  | some v => (Id.fromJson v).map some

def versionOfJson : Json → Option (UInt32 × UInt32)
  | .arr [.num a, .num b] =>
    if a < 2 ^ 32 ∧ b < 2 ^ 32 then some (UInt32.ofNat a, UInt32.ofNat b) else none
  | _ => none

namespace EventEnvelope

def toJson (e : EventEnvelope) : Json :=
  .obj ([("event_id", .str e.eventId), ("session_id", e.sessionId.toJson)]
    ++ optField "task_id" (e.taskId.map Id.toJson)
    ++ optField "run_id" (e.runId.map Id.toJson)
    ++ optField "turn_id" (e.turnId.map Id.toJson)
    ++ optField "step_id" (e.stepId.map Id.toJson)
    ++ [("aggregate_type", .str e.aggregateType.asStr), ("aggregate_id", .str e.aggregateId),
        ("sequence", .num e.sequence), ("event_type", .str e.eventType),
        ("schema_version", .arr [.num e.schemaVersion.1.toNat, .num e.schemaVersion.2.toNat]),
        ("occurred_at", .str e.occurredAt), ("actor", e.actor.toJson)]
    ++ optField "causation_id" (e.causationId.map Json.str)
    ++ optField "correlation_id" (e.correlationId.map Json.str)
    ++ [("payload", e.payload.toJson)]
    ++ optField "payload_object_hash" (e.payloadObjectHash.map Json.str)
    ++ [("integrity_hash", .str e.integrityHash)])

def fromJson (j : Json) : Option EventEnvelope := do
  return {
    eventId := ← DomainEvent.str j "event_id"
    sessionId := ← DomainEvent.id j "session_id"
    taskId := ← optId j "task_id"
    runId := ← optId j "run_id"
    turnId := ← optId j "turn_id"
    stepId := ← optId j "step_id"
    aggregateType := ← (DomainEvent.str j "aggregate_type").bind AggregateType.ofTag
    aggregateId := ← DomainEvent.str j "aggregate_id"
    sequence := ← DomainEvent.nat j "sequence"
    eventType := ← DomainEvent.str j "event_type"
    schemaVersion := ← (j.field "schema_version").bind versionOfJson
    occurredAt := ← DomainEvent.str j "occurred_at"
    actor := ← (j.field "actor").bind Actor.fromJson
    causationId := ← DomainEvent.optStr j "causation_id"
    correlationId := ← DomainEvent.optStr j "correlation_id"
    payload := ← (j.field "payload").bind DomainEvent.fromJson
    payloadObjectHash := ← DomainEvent.optStr j "payload_object_hash"
    integrityHash := ← DomainEvent.str j "integrity_hash" }

/-! ### The integrity hash -/

def canonicalBytes (e : EventEnvelope) : List UInt8 :=
  ({ e with integrityHash := "" }.toJson.render).toUTF8.toList

def computeIntegrityHash (e : EventEnvelope) : String := Sha256.hex e.canonicalBytes

/-- `seal` of the source. -/
def sealed (e : EventEnvelope) : EventEnvelope :=
  { e with integrityHash := e.computeIntegrityHash }

def verifyIntegrity (e : EventEnvelope) : Bool := e.integrityHash == e.computeIntegrityHash

/-- **A sealed envelope verifies**: the hash does not cover itself. -/
@[simp] theorem verifyIntegrity_sealed (e : EventEnvelope) : e.sealed.verifyIntegrity = true := by
  have h : e.sealed.computeIntegrityHash = e.computeIntegrityHash := rfl
  rw [verifyIntegrity, h]
  exact beq_self_eq_true _

end EventEnvelope

/-! ### An event is not an envelope -/

theorem field_event_id (p : DomainEvent) : p.toJson.field "event_id" = none := by
  cases p <;> rfl

/-- **The JSON of a domain event never reads as an envelope.** -/
theorem fromJson_domainEvent (p : DomainEvent) : EventEnvelope.fromJson p.toJson = none := by
  have hid : DomainEvent.str p.toJson "event_id" = none := by
    rw [DomainEvent.str, field_event_id]
    rfl
  rw [EventEnvelope.fromJson, hid]
  rfl

end Modbit
