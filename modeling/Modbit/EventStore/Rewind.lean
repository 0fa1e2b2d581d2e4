import Modbit.EventStore.System

/-!
# Rewinding a session

`RewindSpec` is what a rewind of a session is to do: a request that names the hash
the stream ends with and an earlier sequence number appends one `SessionRewound`
that counts the events `previewRewind` lists; any other request is rejected and
leaves the stream alone.

The planner reads the stored payloads as whole envelopes.  A payload is the JSON of
a domain event, which never reads as an envelope, so `plan` never succeeds on a
rewind (`not_staged_rewind`): the second half of the specification holds, the first
never does.
-/

namespace Modbit

open Lib List

variable {db : Db} {o : Oracle} {command : Command}

/-- Every payload in the log is the JSON of a domain event. -/
def PayloadsTyped (db : Db) : Prop :=
  ∀ r ∈ db.events, ∃ p : DomainEvent, r.payloadInline = p.toJson

theorem after_payloadsTyped (ops : List Op) : PayloadsTyped (Db.after ops) := by
  intro r hr
  rw [after_events] at hr
  obtain ⟨e, _, rfl⟩ := mem_map.mp hr
  exact ⟨e.payload, rfl⟩

theorem mem_of_mem_selectAggregate {id : String} {r : EventRow} (h : r ∈ selectAggregate db id) :
    r ∈ db.events := by
  rw [selectAggregate, inOrder, mem_insertionSort] at h
  exact (mem_stream.mp h).1

/-- **No stored stream reads as envelopes.** -/
theorem loadSessionEnvelopes_nil (h : PayloadsTyped db) {id : String} {stream : List EventEnvelope}
    (hl : loadSessionEnvelopes db id = .ok stream) : stream = [] := by
  rw [loadSessionEnvelopes] at hl
  cases hrows : selectAggregate db id with
  | nil =>
    rw [hrows] at hl
    exact (Except.ok.inj hl).symm
  | cons r rows =>
    rw [hrows, mapM_cons] at hl
    obtain ⟨e, he, _⟩ := bind_eq_ok.mp hl
    have hmem : r ∈ db.events := by
      have hsel : r ∈ selectAggregate db id := by
        rw [hrows]
        exact mem_cons_self
      exact mem_of_mem_selectAggregate hsel
    obtain ⟨p, hp⟩ := h r hmem
    rw [hp, fromJson_domainEvent] at he
    cases he

variable {sessionId : SessionId} {toSequence : Nat}

theorem not_staged_rewind (h : PayloadsTyped db) {hash : String} {es : List EventEnvelope} :
    ¬ Staged db o (.rewindSession sessionId toSequence hash) es := by
  intro hs
  generalize hp : CommandPayload.rewindSession sessionId toSequence hash = payload at hs
  cases hs with
  | rewind hl hlast _ =>
    rw [loadSessionEnvelopes_nil h hl] at hlast
    cases hlast
  | lifecycle _ hlife _ _ _ _ =>
    subst hp
    cases hlife
  | session _ | task _ | input _ _ _ _ | question _ | goal _ _ | fork _ => cases hp

/-! ### The specification -/

/-- The request names the hash of the last event and an earlier sequence number. -/
def ValidRewind (db : Db) (sessionId : SessionId) (toSequence : Nat) (hash : String) : Prop :=
  let stream := EventRow.streamOf sessionId.toText db.events
  (∃ last, stream.getLast? = some last ∧ hash = last.integrityHash) ∧
    1 ≤ toSequence ∧ toSequence < stream.length

def RewindSpec (db : Db) (commandId : String) (actor : Actor) (sessionId : SessionId)
    (toSequence : Nat) (hash : String) (o : Oracle) : Prop :=
  let r := execute db ⟨commandId, actor, .rewindSession sessionId toSequence hash⟩ o
  let n := (EventRow.streamOf sessionId.toText db.events).length
  (ValidRewind db sessionId toSequence hash →
    ∃ e preview, r.2 = .ok (.applied [e.eventId]) ∧
      r.1.events = db.events ++ [EventEnvelope.storedRow e] ∧
      e.aggregateId = sessionId.toText ∧ e.sequence = n + 1 ∧
      previewRewind db sessionId.toText toSequence = .ok preview ∧
      e.payload = .sessionRewound toSequence preview.length hash) ∧
  (¬ ValidRewind db sessionId toSequence hash →
    (∃ x, r.2 = .ok (.rejected x)) ∧
      EventRow.streamOf sessionId.toText r.1.events = EventRow.streamOf sessionId.toText db.events)

/-- The log records the command id as applied. -/
def RecordedApplied (db : Db) (commandId : String) : Prop :=
  ∃ row, db.commandLog.find? (fun r => r.commandId = commandId) = some row ∧ row.status = "APPLIED"

theorem execute_rewind (h : PayloadsTyped db) (commandId : String) (actor : Actor)
    (sessionId : SessionId) (toSequence : Nat) (hash : String) (o : Oracle) :
    let r := execute db ⟨commandId, actor, .rewindSession sessionId toSequence hash⟩ o
    r.1.events = db.events ∧
      ((RecordedApplied db commandId ∧ ∃ ids, r.2 = .ok (.replayed ids)) ∨
        (¬ RecordedApplied db commandId ∧ ∃ x, r.2 = .ok (.rejected x))) := by
  have hres := execute_result db ⟨commandId, actor, .rewindSession sessionId toSequence hash⟩ o
  generalize execute db ⟨commandId, actor, .rewindSession sessionId toSequence hash⟩ o = r at hres
  cases hres with
  | @seen row hrow =>
    refine ⟨rfl, ?_⟩
    by_cases hst : row.status = "APPLIED"
    · exact Or.inl ⟨⟨row, hrow, hst⟩, _, by simp only [recordedOutcome, if_pos hst]; rfl⟩
    · refine Or.inr ⟨?_, _, by simp only [recordedOutcome, if_neg hst]; rfl⟩
      rintro ⟨row', hrow', hst'⟩
      rw [hrow] at hrow'
      exact hst (Option.some.inj hrow' ▸ hst')
  | refused hu _ =>
    refine ⟨rfl, Or.inr ⟨?_, _, rfl⟩⟩
    rintro ⟨row, hrow, _⟩
    rw [find?_eq_none_iff.mpr hu] at hrow
    cases hrow
  | applied _ hs _ => exact absurd (stage_ok hs).1 (not_staged_rewind h)
  | stopped _ hs _ _ => exact absurd (stage_ok hs).1 (not_staged_rewind h)

theorem not_rewindSpec (h : PayloadsTyped db) {commandId : String} {actor : Actor} {hash : String}
    (hv : ValidRewind db sessionId toSequence hash) :
    ¬ RewindSpec db commandId actor sessionId toSequence hash o := by
  rintro ⟨hvalid, _⟩
  obtain ⟨e, _, happ, _⟩ := hvalid hv
  obtain ⟨_, ⟨_, ids, hr⟩ | ⟨_, x, hr⟩⟩ :=
    execute_rewind h commandId actor sessionId toSequence hash o
  · rw [hr] at happ
    cases happ
  · rw [hr] at happ
    cases happ

/-- **Exactly the valid rewinds fail.**  On every reachable store a rewind does what
it is to do exactly when the request is not valid and its command id is not one the
log records as applied. -/
theorem rewindSpec_iff (ops : List Op) (commandId : String) (actor : Actor)
    (sessionId : SessionId) (toSequence : Nat) (hash : String) (o : Oracle) :
    RewindSpec (Db.after ops) commandId actor sessionId toSequence hash o ↔
      ¬ ValidRewind (Db.after ops) sessionId toSequence hash ∧
        ¬ RecordedApplied (Db.after ops) commandId := by
  have htyped := after_payloadsTyped ops
  obtain ⟨hev, hcase⟩ := execute_rewind htyped commandId actor sessionId toSequence hash o
  constructor
  · intro hspec
    have hnot : ¬ ValidRewind (Db.after ops) sessionId toSequence hash :=
      fun hv => not_rewindSpec htyped hv hspec
    refine ⟨hnot, ?_⟩
    obtain ⟨⟨x, hx⟩, _⟩ := hspec.2 hnot
    rcases hcase with ⟨_, ids, hr⟩ | ⟨hrec, _⟩
    · rw [hr] at hx
      cases hx
    · exact hrec
  · rintro ⟨hnot, hrec⟩
    refine ⟨fun hv => absurd hv hnot, fun _ => ⟨?_, by rw [hev]⟩⟩
    rcases hcase with ⟨h, _⟩ | ⟨_, hr⟩
    · exact absurd h hrec
    · exact hr

/-! ### A refused rewind -/

def rewindSetup : List Call :=
  sampleCalls [.createSession "s", .askSideQuestion ⟨.ofNat 0⟩ "q" "why" 0]

def lastHash (db : Db) (aggregateId : String) : String :=
  ((EventRow.streamOf aggregateId db.events).getLast?.map EventRow.integrityHash).getD ""

theorem validRewind_lastHash (h1 : 1 ≤ toSequence)
    (h2 : toSequence < (EventRow.streamOf sessionId.toText db.events).length) :
    ValidRewind db sessionId toSequence (lastHash db sessionId.toText) := by
  refine ⟨?_, h1, h2⟩
  have hne : EventRow.streamOf sessionId.toText db.events ≠ [] :=
    ne_nil_of_length_pos (by omega)
  refine ⟨_, getLast?_eq_some_getLast hne, ?_⟩
  rw [lastHash, getLast?_eq_some_getLast hne, Option.map_some, Option.getD_some]

/-- Rewinding the two events to the first, with the hash of the second, is refused. -/
theorem rewind_two_events :
    let db := Db.after (rewindSetup.map Call.op)
    ¬ RewindSpec db "rewind" ⟨.user, "u"⟩ ⟨.ofNat 0⟩ 1
      (lastHash db (Id.toText (⟨.ofNat 0⟩ : SessionId))) (sampleOracle 2) := by
  intro db
  have hlen : (EventRow.streamOf (Id.toText (⟨.ofNat 0⟩ : SessionId))
      (run evalCall Db.empty rewindSetup).events).length = 2 := by decide +kernel
  refine not_rewindSpec (after_payloadsTyped _) (validRewind_lastHash (by decide) ?_)
  rw [← afterCalls_eq, afterCalls_eval, hlen]
  decide

end Modbit
