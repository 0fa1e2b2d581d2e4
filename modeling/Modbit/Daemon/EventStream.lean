import Modbit.EventStore.EventIds
import Modbit.EventStore.Polling
import Modbit.Protocol.StateStore

/-!
# The event stream of the daemon

`sse_stream` writes the events of the log to a client's connection, a page of at most
`EVENTS_BATCH` at a time, and after each page puts the offset it has come to into the journal
under the client's id.  A client that connects again without an offset is served from there.

`World` is the store, the journal, the daemon and one client.  The daemon has a thread for every
connection it was ever asked for: the thread of a connection the client has left goes on until a write
fails.  What the socket takes and what the client reads of it are counted in bytes, so a loss is
anything the client has not read when it leaves (`disconnect`).
-/

namespace Modbit

open Lib

namespace ProtocolState

def ProtocolRecord.cursorOf (consumerId : String) : ProtocolRecord → Option UInt64
  | .terminalCursor runId offset => if runId = consumerId then some offset else none
  | _ => none

/-- `last_cursor`: the latest record wins. -/
def ProtocolStateStore.lastCursor (s : ProtocolStateStore) (consumerId : String) : Option UInt64 :=
  s.records.reverse.findSome? (·.cursorOf consumerId)

end ProtocolState

namespace Daemon

open ProtocolState

/-! ### What is written for an event -/

def EVENTS_BATCH : Nat := 100

structure Frame where
  eventId : String
  aggregateId : String
  sequence : Nat
  eventType : String
  offset : Nat
  deriving DecidableEq

namespace Frame

def payload (f : Frame) : Json :=
  .obj [("aggregate_id", .str f.aggregateId), ("event_id", .str f.eventId),
    ("event_type", .str f.eventType), ("offset", .num f.offset), ("sequence", .num f.sequence)]

def line (f : Frame) : List UInt8 := Utf8.encode ("data: " ++ f.payload.render ++ "\n\n").toList

/-- The frame of an event of a page that was asked for after `since`. -/
def ofEvent (since : Nat) (events : List EventEnvelope) (e : EventEnvelope) : Frame where
  eventId := e.eventId
  aggregateId := e.aggregateId
  sequence := e.sequence
  eventType := e.eventType
  offset := since + ((events.findIdx? (fun x => x.eventId = e.eventId)).map (· + 1)).getD 0

end Frame

def size (frames : List Frame) : Nat := (frames.map (fun f => f.line.length)).sum

/-- The frames that are whole within the first `n` bytes. -/
def whole : Nat → List Frame → List Frame
  | _, [] => []
  | n, f :: frames => if f.line.length ≤ n then f :: whole (n - f.line.length) frames else []

/-! ### The daemon and a client -/

/-- A thread of `sse_stream`, with the frames the socket took. -/
structure SseStream where
  since : Nat
  frames : List Frame
  running : Bool
  deriving DecidableEq

/-- `store` is the journal the daemon has open, `threads` are those of this client's connections in
the order they were made, and `current` is the connection the client is on, of which it has read
`read` bytes.  `received` are the frames it had of the connections it has left. -/
structure World where
  db : Db
  file : Option (List UInt8)
  store : Option ProtocolStateStore
  up : Bool
  threads : List SseStream
  current : Option Nat
  read : Nat
  received : List Frame

/-- In `poll` the socket takes `accepted` bytes, and of a record that goes to the journal `kept` bytes
get there. -/
inductive Event where
  | start
  | stop
  | commit (op : Op)
  | connect
  | poll (i accepted kept : Nat)
  | read (n : Nat)
  | disconnect
  | record (r : ProtocolRecord) (kept : Nat)

namespace World

def fresh : World := ⟨.empty, none, none, false, [], none, 0, []⟩

def connection (w : World) : Option SseStream := w.current.bind (fun i => w.threads[i]?)

def written (w : World) : List Frame := (w.connection.map SseStream.frames).getD []

def got (w : World) : List Frame := w.received ++ whole w.read w.written

def unread (w : World) : List Frame := w.written.drop (whole w.read w.written).length

/-- `append` on the open journal; the daemon goes on after an error. -/
def append (json : RecordJson) (w : World) (r : ProtocolRecord) (kept : Nat) : World :=
  match w.store with
  | none => w
  | some store =>
    { w with
      file := some (w.file.getD [] ++ (line json r).take kept)
      store := some (if (line json r).length ≤ kept then ⟨store.records ++ [r]⟩ else store) }

/-- Where a client that gives no offset is served from. -/
def cursor (client : String) (store : Option ProtocolStateStore) : Nat :=
  if client = "" then 0
  else (store.bind (fun s => (s.lastCursor client).map UInt64.toNat)).getD 0

/-- One turn of the loop in `sse_stream`. -/
def turn (json : RecordJson) (client : String) (w : World) (i : Nat) (t : SseStream)
    (accepted kept : Nat) : World :=
  match eventsSinceGlobal w.db t.since EVENTS_BATCH with
  | .error _ => { w with threads := w.threads.set i { t with running := false } }
  | .ok (events, newOffset) =>
    let frames := events.map (Frame.ofEvent t.since events)
    if accepted < size frames then
      { w with threads := w.threads.set i ⟨t.since, t.frames ++ whole accepted frames, false⟩ }
    else
      let w := { w with threads := w.threads.set i ⟨newOffset, t.frames ++ frames, true⟩ }
      if client = "" then w
      else w.append json (.terminalCursor client (UInt64.ofNat newOffset)) kept

/-- One event.  A commit for which SQLite has no row numbers left is refused. -/
def step (json : RecordJson) (client : String) (w : World) : Event → World × Unit
  | .start =>
    (if w.up then w else { w with up := true, store := (openStore json w.file).toOption }, ())
  | .stop =>
    ({ w with
        up := false
        store := none
        threads := w.threads.map ({ · with running := false }) }, ())
  | .commit op =>
    (if RowidsFit (Modbit.step w.db op).1 then { w with db := (Modbit.step w.db op).1 } else w, ())
  | .connect =>
    (if w.up ∧ w.current = none then
      { w with
        threads := w.threads ++ [⟨cursor client w.store, [], true⟩]
        current := some w.threads.length
        read := 0 }
    else w, ())
  | .poll i accepted kept =>
    (match w.threads[i]? with
    | some t => if t.running then w.turn json client i t accepted kept else w
    | none => w, ())
  | .read n => ({ w with read := min (w.read + n) (size w.written) }, ())
  | .disconnect => ({ w with current := none, read := 0, received := w.got }, ())
  | .record r kept =>
    (if r.cursorOf client = none then w.append json r kept else w, ())

end World

end Daemon

end Modbit
