import Modbit.Domain.Envelope
import Modbit.Domain.Task
import Modbit.Lib.Stream

/-!
# The tables

`crates/event-store/src/migrations.rs`.  A table is the list of its rows in rowid
order, with the columns the code writes; columns nothing writes are left out.
The JSON text of `payload_inline` and `result_event_ids` is the document it is
the text of.  Sequence numbers and generations stay far below `2 ^ 63`, so the
casts between `u64` and `i64` are not written; where a caller's number is cast,
`asI64` is.

`insertEventRow` carries the `PRIMARY KEY` and `UNIQUE` constraints of `events`.
Two ways of counting a stream stand next to it: `nextSequence` by a maximum and
`countEvents` by a count.
-/

namespace Modbit

open Lib

/-- A violated constraint, with the columns SQLite names. -/
inductive SqliteError where
  | unique (columns : String)
  | foreignKey
deriving DecidableEq

/-- Why a command was rejected: a message of the code, or the text of an SQLite,
serde or uuid error.  `unreachable` stands for the arm of that name. -/
inductive Reason where
  | message (text : String)
  | sqlite (e : SqliteError)
  | serde
  | uuid
  | unreachable
deriving DecidableEq

/-- `parseInt` is the `Io` error that carries a `ParseIntError`. -/
inductive StoreError where
  | sqlite (e : SqliteError)
  | sequenceConflict (aggregateId : String) (expected actual : Nat)
  | integrityMismatch (eventId : String)
  | io (text : String)
  | parseInt
  | uuid
  | staleLease (sessionId leaseId : String)
deriving DecidableEq

/-! ### Rows -/

structure EventRow where
  eventId : String
  sessionId : String
  aggregateType : String
  aggregateId : String
  sequence : Nat
  eventType : String
  schemaVersion : String
  occurredAt : String
  actorType : String
  actorId : String
  causationId : Option String
  correlationId : Option String
  payloadInline : Json
  payloadObjectHash : Option String
  integrityHash : String

structure CommandLogRow where
  commandId : String
  commandType : String
  status : String
  resultEventIds : Json
  error : Option Reason
  processedAt : String

structure SessionRow where
  sessionId : String
  state : String
  generation : Nat
  createdAt : String
  updatedAt : String
  lastEventSequence : Nat
deriving DecidableEq

structure TaskRow where
  taskId : String
  sessionId : String
  goalText : String
  state : String
  generation : Nat
  createdAt : String
  startedAt : Option String
  completedAt : Option String
  failureCode : Option String
  parentTaskId : Option String
deriving DecidableEq

structure TaskInputRow where
  inputId : String
  taskId : String
  mode : String
  text : String
  sequence : Nat
  state : String
deriving DecidableEq

structure LeaseRow where
  sessionId : String
  leaseId : String
  owner : String
  generation : Nat
  acquiredAt : String
deriving DecidableEq

structure WriteScopeRow where
  taskId : String
  repoKey : String
  path : String
deriving DecidableEq

/-- The tables `project` writes. -/
structure Projections where
  sessions : List SessionRow
  tasks : List TaskRow
  taskInputs : List TaskInputRow
deriving DecidableEq

def Projections.empty : Projections := ⟨[], [], []⟩

structure Db where
  events : List EventRow
  commandLog : List CommandLogRow
  projections : Projections
  sessionLeases : List LeaseRow
  taskWriteScopes : List WriteScopeRow

def Db.empty : Db := ⟨[], [], .empty, [], []⟩

/-- `n as i64` for an unsigned 64-bit `n`. -/
def asI64 (n : Nat) : Int := (n : Int).bmod 0x10000000000000000

/-! ### The event table -/

abbrev EventRow.streamOf (aggregateId : String) (events : List EventRow) : List EventRow :=
  stream EventRow.aggregateId aggregateId events

/-- `WHERE aggregate_id = ?1 ORDER BY sequence`. -/
def selectAggregate (db : Db) (aggregateId : String) : List EventRow :=
  inOrder EventRow.aggregateId EventRow.sequence aggregateId db.events

/-- `SELECT MAX(sequence) … WHERE aggregate_id = ?1`, plus one. -/
def nextSequence (db : Db) (aggregateId : String) : Nat :=
  nextSeq EventRow.aggregateId EventRow.sequence aggregateId db.events

/-- `SELECT COUNT(*) … WHERE aggregate_id = ?1`. -/
def countEvents (db : Db) (aggregateId : String) : Nat :=
  (EventRow.streamOf aggregateId db.events).length

/-- Every stream counts `1, 2, …, n`. -/
abbrev GaplessLog (events : List EventRow) : Prop :=
  Gapless EventRow.aggregateId EventRow.sequence events

instance lawfulBEq_streamKey : LawfulBEq (String × Nat) := Prod.instLawfulBEq

def insertEventRow (db : Db) (row : EventRow) : Except SqliteError Db :=
  if row.eventId ∈ db.events.map EventRow.eventId then .error (.unique "events.event_id")
  else if (row.aggregateId, row.sequence)
      ∈ db.events.map (fun r => (r.aggregateId, r.sequence)) then
    .error (.unique "events.aggregate_id, events.sequence")
  else .ok { db with events := db.events ++ [row] }

theorem insertEventRow_ok {db db' : Db} {row : EventRow} (h : insertEventRow db row = .ok db') :
    db' = { db with events := db.events ++ [row] } := by
  rw [insertEventRow] at h
  split at h
  · cases h
  · split at h
    · cases h
    · exact (Except.ok.inj h).symm

/-- **A row with a new id and the next sequence number always goes in.** -/
theorem insertEventRow_next {db : Db} {row : EventRow} (hg : GaplessLog db.events)
    (hid : row.eventId ∉ db.events.map EventRow.eventId)
    (hseq : row.sequence = nextSequence db row.aggregateId) :
    insertEventRow db row = .ok { db with events := db.events ++ [row] } := by
  rw [insertEventRow, if_neg hid, if_neg]
  simp only [List.mem_map, Prod.mk.injEq, not_exists, not_and]
  intro r hr hk hs
  exact hg.seq_ne_nextSeq hr hk (hs.trans hseq)

end Modbit
