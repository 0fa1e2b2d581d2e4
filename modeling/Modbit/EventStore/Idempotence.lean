import Modbit.EventStore.Execution
import Modbit.Lib.Run

/-!
# Idempotence of commands

A command id is answered from the command log once it is there.  The log only
grows and a row stays the first with its id, so the recorded outcome is what every
later call gets, whatever has happened to the store in between.

`execute_idempotent` puts this over whole runs: leaving out the repeated calls of a
list changes nothing, and a repeated call is answered as `repeated` says.
-/

namespace Modbit

open Lib List

/-- The calls whose command id is neither in `seen` nor on an earlier call. -/
def dropRepeats (seen : List String) : List Call → List Call
  | [] => []
  | call :: calls =>
    if call.1.commandId ∈ seen then dropRepeats seen calls
    else call :: dropRepeats (call.1.commandId :: seen) calls

/-- The answer to a command given an earlier answer to the same command id. -/
def repeated : Except StoreError Outcome → Except StoreError Outcome
  | .ok (.applied ids) => .ok (.replayed ids)
  | .ok (.replayed ids) => .ok (.replayed ids)
  | .ok (.rejected _) => .ok (.rejected (.message "previously rejected (idempotent replay)"))
  | .error x => .error x

def recorded (db : Db) (commandId : String) : Option CommandLogRow :=
  db.commandLog.find? (fun r => r.commandId = commandId)

variable {db : Db} {command : Command} {o : Oracle} {row : CommandLogRow}

theorem execute_seen (h : recorded db command.commandId = some row) :
    execute db command o = (db, .ok (recordedOutcome row)) := by
  have hrow : db.commandLog.find? (fun r => r.commandId = command.commandId) = some row := h
  rw [execute, hrow]

variable {id : String}

theorem recorded_withLog_other (tx : Db)
    (h : recorded db id = some row) (hlog : tx.commandLog = db.commandLog) (new : CommandLogRow) :
    recorded (tx.withLog new) id = some row := by
  have h' : db.commandLog.find? (fun r => r.commandId = id) = some row := h
  rw [recorded, Db.withLog]
  simp only
  rw [hlog, find?_append, h', Option.some_or]

theorem recorded_execute (h : recorded db id = some row) :
    recorded (execute db command o).1 id = some row := by
  have hres := execute_result db command o
  generalize execute db command o = r at hres
  cases hres with
  | seen _ => exact h
  | refused _ _ => exact recorded_withLog_other db h rfl _
  | applied _ _ _ => exact recorded_withLog_other _ h rfl _
  | stopped _ _ _ _ => exact recorded_withLog_other _ h rfl _

theorem recorded_withLog_self {tx : Db} {r : Except Reason (List String)}
    (hu : Unseen db command) (hlog : tx.commandLog = db.commandLog) :
    recorded (tx.withLog (logRow command o r)) command.commandId = some (logRow command o r) := by
  have hid : (logRow command o r).commandId = command.commandId := by cases r <;> rfl
  have hnone : db.commandLog.find? (fun r => r.commandId = command.commandId) = none :=
    find?_eq_none_iff.mpr hu
  rw [recorded, Db.withLog]
  simp only
  rw [hlog, find?_append, hnone, Option.none_or]
  simp [hid]

theorem recordedOutcome_logRow (r : Except Reason (List String)) :
    .ok (recordedOutcome (logRow command o r)) = repeated (.ok (outcomeOf r)) := by
  cases r with
  | ok ids => simp [recordedOutcome, logRow, repeated, outcomeOf]
  | error x => simp [recordedOutcome, logRow, repeated, outcomeOf]

theorem repeated_recordedOutcome (row : CommandLogRow) :
    repeated (.ok (recordedOutcome row)) = .ok (recordedOutcome row) := by
  rw [recordedOutcome]
  split <;> rfl

theorem exists_recorded (db : Db) (command : Command) (o : Oracle) :
    ∃ row, recorded (execute db command o).1 command.commandId = some row ∧
      .ok (recordedOutcome row) = repeated (execute db command o).2 := by
  have hres := execute_result db command o
  generalize execute db command o = r at hres
  cases hres with
  | @seen row hrow => exact ⟨row, hrow, (repeated_recordedOutcome row).symm⟩
  | refused hu _ => exact ⟨_, recorded_withLog_self hu rfl, recordedOutcome_logRow _⟩
  | applied hu _ _ => exact ⟨_, recorded_withLog_self hu rfl, recordedOutcome_logRow _⟩
  | stopped hu _ _ _ => exact ⟨_, recorded_withLog_self hu rfl, recordedOutcome_logRow _⟩

theorem recorded_run (calls : List Call) :
    ∀ {db : Db}, recorded db id = some row → recorded (run executeCall db calls) id = some row := by
  induction calls with
  | nil => intro db h; exact h
  | cons call calls ih =>
    intro db h
    rw [run_cons]
    exact ih (recorded_execute h)

theorem execute_recorded (h : ∃ row, recorded db command.commandId = some row) :
    (execute db command o).1 = db := by
  obtain ⟨row, hrow⟩ := h
  rw [execute_seen hrow]

/-- Leaving out the calls whose ids are recorded, or on an earlier call, changes
nothing.  The induction keeps that every id in `seen` is recorded. -/
theorem run_dropRepeats (calls : List Call) : ∀ {db : Db} {seen : List String},
    (∀ id ∈ seen, ∃ row, recorded db id = some row) →
    run executeCall db (dropRepeats seen calls) = run executeCall db calls := by
  induction calls with
  | nil => intro db seen _; rfl
  | cons call calls ih =>
    intro db seen hseen
    rw [dropRepeats, run_cons]
    by_cases hmem : call.1.commandId ∈ seen
    · have hsame : (executeCall db call).1 = db := execute_recorded (hseen _ hmem)
      rw [if_pos hmem, hsame]
      exact ih hseen
    · rw [if_neg hmem, run_cons]
      refine ih (fun id hid => ?_)
      rcases mem_cons.mp hid with rfl | hid
      · obtain ⟨row, hrow, _⟩ := exists_recorded db call.1 call.2
        exact ⟨row, hrow⟩
      · obtain ⟨row, hrow⟩ := hseen id hid
        exact ⟨row, recorded_execute hrow⟩

/-- **A command id counts once.**  A list of calls leaves the same database as the
list without its repeated calls; and a call that repeats a command id, however much
later and with whatever payload, changes nothing and is answered by the outcome of
the earlier call: the same event ids if it was applied, a rejection if it was
rejected. -/
theorem execute_idempotent (db : Db) (calls : List Call) :
    run executeCall db calls
        = run executeCall db (dropRepeats (db.commandLog.map CommandLogRow.commandId) calls) ∧
      ∀ (before after : List Call) (command : Command) (o o' : Oracle) (actor : Actor)
        (payload : CommandPayload),
        let first := execute (run executeCall db before) command o
        let later := run executeCall first.1 after
        execute later ⟨command.commandId, actor, payload⟩ o' = (later, repeated first.2) := by
  constructor
  · refine (run_dropRepeats calls (fun id hid => ?_)).symm
    rw [← Option.isSome_iff_exists, recorded, find?_isSome]
    obtain ⟨row, hrow, rfl⟩ := mem_map.mp hid
    exact ⟨row, hrow, by simp⟩
  · intro before after command o o' actor payload first later
    obtain ⟨row, hrow, hrep⟩ := exists_recorded (run executeCall db before) command o
    have hseen : execute later ⟨command.commandId, actor, payload⟩ o'
        = (later, .ok (recordedOutcome row)) := execute_seen (recorded_run after hrow)
    rw [hseen, hrep]

end Modbit
