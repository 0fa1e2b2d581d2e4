import Modbit.EventStore.System

/-!
# The ids of the event log

`event_id` is the primary key of the event table: `insertEventRow` refuses a row whose id is
there already, and every call that writes puts its rows in through it.  `step_distinctIds`
says that no call makes two rows share an id, so a row of a page can be found by its id.
-/

namespace Modbit

open Lib

variable {db tx tx' : Db} {es : List EventEnvelope}

def DistinctIds (db : Db) : Prop := (db.events.map EventRow.eventId).Nodup

instance (db : Db) : Decidable (DistinctIds db) := inferInstanceAs (Decidable (List.Nodup _))

theorem DistinctIds.insert {row : EventRow} (h : DistinctIds tx)
    (hi : insertEventRow tx row = .ok tx') : DistinctIds tx' := by
  have hnew : row.eventId ∉ tx.events.map EventRow.eventId := by
    intro hmem
    rw [insertEventRow, if_pos hmem] at hi
    cases hi
  rw [insertEventRow_ok hi, DistinctIds, List.map_append]
  refine List.nodup_append'.mpr ⟨h, List.nodup_singleton _, ?_⟩
  exact List.disjoint_singleton.mpr hnew

theorem DistinctIds.project {e : EventEnvelope} (h : DistinctIds tx)
    (hp : projectInto tx e = .ok tx') : DistinctIds tx' := by
  obtain ⟨p, -, rfl⟩ := projectInto_ok hp
  exact h

theorem appendLoop_distinctIds : ∀ {es : List EventEnvelope} {tx : Db}
    {sequences : List (String × Nat)}, DistinctIds tx →
    appendLoop tx sequences es = .ok tx' → DistinctIds tx' := by
  intro es
  induction es with
  | nil =>
    intro tx sequences h hloop
    rw [appendLoop] at hloop
    rw [← Except.ok.inj hloop]
    exact h
  | cons e es ih =>
    intro tx sequences h hloop
    rw [appendLoop] at hloop
    obtain ⟨_, -, hloop⟩ := bind_eq_ok.mp hloop
    obtain ⟨inserted, hi, hloop⟩ := bind_eq_ok.mp hloop
    obtain ⟨projected, hp, hloop⟩ := bind_eq_ok.mp hloop
    rw [insertEvent] at hi
    obtain ⟨_, -, hi⟩ := bind_eq_ok.mp hi
    have hinserted : DistinctIds inserted := h.insert (ok_of_mapError _ hi)
    exact ih (hinserted.project (ok_of_mapError _ hp)) hloop

theorem transact_distinctIds (h : DistinctIds db) (es : List EventEnvelope) :
    DistinctIds (transact db (appendLoop db [] es)).1 := by
  cases hloop : appendLoop db [] es with
  | error x => exact h
  | ok tx => exact appendLoop_distinctIds h hloop

theorem commitLoop_distinctIds : ∀ {es : List EventEnvelope} {tx : Db}, DistinctIds tx →
    DistinctIds (commitLoop tx es).1 := by
  intro es
  induction es with
  | nil => exact id
  | cons e es ih =>
    intro tx h
    rw [commitLoop]
    split_ifs with hv
    · exact h
    · cases hi : insertEventRow tx e.commandRow with
      | error x => exact h
      | ok inserted =>
        have hinserted : DistinctIds inserted := h.insert hi
        dsimp only
        cases hp : projectInto inserted e with
        | error x => exact hinserted
        | ok projected => exact ih (hinserted.project hp)

theorem execute_distinctIds (h : DistinctIds db) (command : Command) (o : Oracle) :
    DistinctIds (execute db command o).1 := by
  have hplan : DistinctIds (planAndAppend db o command.payload).1 := by
    rw [planAndAppend]
    split
    · exact h
    · exact commitLoop_distinctIds h
  rw [execute]
  split
  · exact h
  · dsimp only
    split
    · exact h
    · next tx htx =>
      rw [insertCommandLog] at htx
      split_ifs at htx
      rw [← Except.ok.inj htx]
      exact hplan

/-- **Every call keeps the ids apart.** -/
theorem step_distinctIds (h : DistinctIds db) (op : Op) : DistinctIds (step db op).1 := by
  cases op with
  | append es =>
    show DistinctIds (append db es).1
    rw [append]
    split_ifs
    · exact h
    · exact transact_distinctIds h es
  | appendWithLease s l es =>
    show DistinctIds (appendWithLease db s l es).1
    rw [appendWithLease]
    split_ifs
    · exact h
    · exact h
    · exact transact_distinctIds h es
  | execute c o => exact execute_distinctIds h c o
  | acquireLease s l w n => exact h
  | acquireScope t r p =>
    have hrows := (WriteScopes.acquire_frame db t r p).1
    show DistinctIds (WriteScopes.acquire db t r p).1
    rw [DistinctIds, hrows]
    exact h
  | releaseScope t => exact h

end Modbit
