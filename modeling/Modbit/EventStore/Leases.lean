import Modbit.EventStore.Schema

/-!
# Session leases

`crates/event-store/src/leases.rs`.  The table has one row per session.
`acquire` writes the row with the next generation, `isCurrent` is the fencing
check.  `current_acquire_self` and `current_acquire_other` say what an
acquisition does to the lease of each session.
-/

namespace Modbit

open List

structure Lease where
  leaseId : String
  generation : Nat
deriving DecidableEq

namespace Leases

/-- The current lease of a session, if one was ever acquired. -/
def current (db : Db) (sessionId : String) : Option Lease :=
  (db.sessionLeases.find? (fun r => r.sessionId = sessionId)).map
    (fun r => ⟨r.leaseId, r.generation⟩)

def isCurrent (db : Db) (sessionId leaseId : String) : Bool :=
  match current db sessionId with
  | some l => l.leaseId == leaseId
  | none => false

/-- `INSERT … ON CONFLICT(session_id) DO UPDATE`. -/
def upsert (row : LeaseRow) (rows : List LeaseRow) : List LeaseRow :=
  if rows.any (fun r => r.sessionId = row.sessionId) then
    rows.map (fun r => if r.sessionId = row.sessionId then row else r)
  else rows ++ [row]

def nextGeneration (db : Db) (sessionId : String) : Nat :=
  match current db sessionId with
  | some l => l.generation + 1
  | none => 1

/-- `acquire`; `now` is the database clock. -/
def acquire (db : Db) (sessionId leaseId owner now : String) : Db × Lease :=
  let generation := nextGeneration db sessionId
  ({ db with
      sessionLeases := upsert ⟨sessionId, leaseId, owner, generation, now⟩ db.sessionLeases },
    ⟨leaseId, generation⟩)

variable {row : LeaseRow}

theorem find?_map_self {rows : List LeaseRow} (h : ∃ r ∈ rows, r.sessionId = row.sessionId) :
    (rows.map (fun r => if r.sessionId = row.sessionId then row else r)).find?
      (fun r => r.sessionId = row.sessionId) = some row := by
  induction rows with
  | nil => simp at h
  | cons r rows ih =>
    by_cases hr : r.sessionId = row.sessionId
    · simp [hr]
    · have h' : ∃ r ∈ rows, r.sessionId = row.sessionId := by simpa [hr] using h
      simpa [hr] using ih h'

theorem find?_map_other {s : String} (h : s ≠ row.sessionId) (rows : List LeaseRow) :
    (rows.map (fun r => if r.sessionId = row.sessionId then row else r)).find?
      (fun r => r.sessionId = s) = rows.find? (fun r => r.sessionId = s) := by
  induction rows with
  | nil => rfl
  | cons r rows ih =>
    by_cases hr : r.sessionId = row.sessionId
    · simp [hr, h.symm, ih]
    · rw [map_cons, if_neg hr, find?_cons, find?_cons, ih]

theorem find?_upsert_self (row : LeaseRow) (rows : List LeaseRow) :
    (upsert row rows).find? (fun r => r.sessionId = row.sessionId) = some row := by
  rw [upsert]
  split
  · next h => exact find?_map_self (by simpa using h)
  · next h =>
    have hnone : rows.find? (fun r => r.sessionId = row.sessionId) = none := by simpa using h
    simp [find?_append, hnone]

theorem find?_upsert_other {s : String} (h : s ≠ row.sessionId) (rows : List LeaseRow) :
    (upsert row rows).find? (fun r => r.sessionId = s) = rows.find? (fun r => r.sessionId = s) := by
  rw [upsert]
  split
  · exact find?_map_other h rows
  · simp [find?_append, h.symm]

variable {db : Db} {s t lease owner now : String}

/-- **The acquired lease is the session's current one.** -/
theorem current_acquire_self :
    current (acquire db s lease owner now).1 s = some ⟨lease, nextGeneration db s⟩ := by
  have h := find?_upsert_self ⟨s, lease, owner, nextGeneration db s, now⟩ db.sessionLeases
  simp only at h
  rw [current, acquire]
  simp only
  rw [h]
  rfl

theorem current_acquire_other (h : t ≠ s) :
    current (acquire db s lease owner now).1 t = current db t := by
  rw [current, acquire]
  simp only
  rw [find?_upsert_other h, current]

theorem isCurrent_iff : isCurrent db s lease = true ↔ ∃ g, current db s = some ⟨lease, g⟩ := by
  rw [isCurrent]
  cases current db s with
  | none => simp
  | some l =>
    obtain ⟨id, g⟩ := l
    simp

end Leases

end Modbit
