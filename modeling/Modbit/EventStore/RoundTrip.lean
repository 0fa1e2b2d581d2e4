import Modbit.EventStore.Streams

/-!
# Reading back what was written

The event table has no column for the four optional identities of an envelope; the
reader derives them from the aggregate.  An envelope has `OwnIds` when what it carries
is what the reader derives: the aggregate's own identity and nothing else.

`reconstructEnvelope_iff` is the round trip of one row, `load_iff` and
`eventsSinceGlobal_iff` carry it to the readers, and `readsBack_of_ownIds` puts them
together over every run of the store: what was written with its own identities reads
back as it was written, and every stream of such envelopes verifies.
-/

namespace Modbit

open Lib List

/-- The optional identities are those of the aggregate. -/
def OwnIds (e : EventEnvelope) : Prop := aggregateIds e.aggregateType e.aggregateId = .ok e.ids

instance (e : EventEnvelope) : Decidable (OwnIds e) :=
  inferInstanceAs (Decidable (aggregateIds e.aggregateType e.aggregateId = .ok e.ids))

variable {es : List EventEnvelope} {e : EventEnvelope} {db : Db}

/-- **One row reads back exactly when the envelope has its own identities.** -/
theorem reconstructEnvelope_iff (h : e.payload.Faithful) :
    reconstructEnvelope e.storedRow = .ok e ↔ OwnIds e := by
  rw [reconstructEnvelope_storedRow h, map_eq_ok, OwnIds]
  constructor
  · rintro ⟨ids, hids, heq⟩
    rw [hids, EventEnvelope.withIds_eq_iff.mp heq]
  · intro hids
    exact ⟨e.ids, hids, EventEnvelope.withIds_eq_iff.mpr rfl⟩

theorem mapM_reconstruct_iff {rows : List EventEnvelope} (h : ∀ e ∈ rows, e.payload.Faithful) :
    (rows.map EventEnvelope.storedRow).mapM reconstructEnvelope = .ok rows ↔
      ∀ e ∈ rows, OwnIds e := by
  have hid : rows = rows.map id := (map_id rows).symm
  rw [mapM_map]
  nth_rewrite 2 [hid]
  rw [mapM_eq_map]
  refine forall₂_congr (fun e he => ?_)
  exact reconstructEnvelope_iff (h e he)

/-! ### One aggregate -/

theorem load_iff (hg : GaplessLog db.events) (hev : db.events = es.map EventEnvelope.storedRow)
    (hserde : ∀ e ∈ es, e.payload.Faithful) (aggregateId : String) :
    load db aggregateId = .ok (envelopesOf aggregateId es) ↔
      ∀ e ∈ envelopesOf aggregateId es, OwnIds e := by
  rw [load, selectAggregate_stored hg hev,
    mapM_reconstruct_iff (fun e he => hserde e (mem_stream.mp he).1)]

/-- The loop of `verify_stream` passes envelopes numbered in order that verify. -/
theorem verifyFrom_ok (aggregateId : String) : ∀ {l : List EventEnvelope} (n : Nat),
    l.map EventEnvelope.sequence = List.range' (n + 1) l.length →
    (∀ e ∈ l, e.verifyIntegrity = true) → verifyFrom aggregateId n l = .ok () := by
  intro l
  induction l with
  | nil => intro n _ _; rfl
  | cons e l ih =>
    intro n hseq hv
    rw [map_cons, length_cons, range'_succ] at hseq
    obtain ⟨hhead, htail⟩ := List.cons.inj hseq
    rw [verifyFrom, if_neg (not_not.mpr hhead), if_neg (by simp [hv e mem_cons_self])]
    exact ih (n + 1) htail (fun e' he' => hv e' (mem_cons_of_mem e he'))

/-- **A stream of envelopes with their own identities verifies.** -/
theorem verifyStream_ok (hg : GaplessLog db.events)
    (hev : db.events = es.map EventEnvelope.storedRow)
    (hserde : ∀ e ∈ es, e.payload.Faithful) (hv : ∀ e ∈ es, e.verifyIntegrity = true)
    {aggregateId : String} (hown : ∀ e ∈ envelopesOf aggregateId es, OwnIds e) :
    verifyStream db aggregateId = .ok () := by
  have hload := (load_iff hg hev hserde aggregateId).mpr hown
  have hseq : (envelopesOf aggregateId es).map EventEnvelope.sequence
      = List.range' 1 (envelopesOf aggregateId es).length := by
    have hrow := hg aggregateId
    rw [hev] at hrow
    have hstream := streamOf_map aggregateId es
    rw [EventRow.streamOf] at hstream
    rw [hstream, map_map, length_map] at hrow
    exact hrow
  rw [verifyStream, hload, ok_bind]
  exact verifyFrom_ok aggregateId 0 hseq (fun e he => hv e (mem_stream.mp he).1)

/-! ### Ranges of the log -/

/-- The envelopes of a range query, with their offsets. -/
def envelopesSince (es : List EventEnvelope) (keep : EventEnvelope → Bool)
    (afterOffset limit : Nat) : List (EventEnvelope × Nat) :=
  limitTo (asI64 limit)
    ((es.zipIdx 1).filter (fun x => keep x.1 && decide (asI64 afterOffset < x.2)))

theorem limitTo_map {α β : Type} (f : α → β) (limit : Int) (l : List α) :
    limitTo limit (l.map f) = (limitTo limit l).map f := by
  rw [limitTo, limitTo]
  split
  · rfl
  · rw [map_take]

theorem limitTo_subset {α : Type} {limit : Int} {l : List α} {x : α} (h : x ∈ limitTo limit l) :
    x ∈ l := by
  rw [limitTo] at h
  split at h
  · exact h
  · exact mem_of_mem_take h

theorem mem_of_envelopesSince {keep : EventEnvelope → Bool} {afterOffset limit : Nat}
    {x : EventEnvelope × Nat} (h : x ∈ envelopesSince es keep afterOffset limit) :
    x.1 ∈ es ∧ keep x.1 = true := by
  obtain ⟨hmem, hkeep⟩ := mem_filter.mp (limitTo_subset h)
  rw [Bool.and_eq_true] at hkeep
  exact ⟨fst_mem_of_mem_zipIdx hmem, hkeep.1⟩

theorem selectSince_eq (hev : db.events = es.map EventEnvelope.storedRow)
    (keep : EventRow → Bool) (afterOffset limit : Nat) :
    limitTo (asI64 limit) (selectSince db keep (asI64 afterOffset))
      = (envelopesSince es (fun e => keep e.storedRow) afterOffset limit).map
          (Prod.map EventEnvelope.storedRow id) := by
  rw [selectSince, hev, zipIdx_map, filter_map, limitTo_map]
  rfl

/-- The answer that reads a range back: its envelopes, and the offset of the last one to
resume from. -/
def rangeAnswer (afterOffset : Nat) (range : List (EventEnvelope × Nat)) :
    List EventEnvelope × Nat :=
  (range.map Prod.fst, (range.getLast?.map Prod.snd).getD afterOffset)

theorem lastOffset_map (afterOffset : Nat) (range : List (EventEnvelope × Nat)) :
    lastOffset afterOffset (range.map (Prod.map EventEnvelope.storedRow id))
      = (rangeAnswer afterOffset range).2 := by
  rw [lastOffset, rangeAnswer, getLast?_map, Option.map_map]
  rfl

theorem mapM_resume_iff {α ε β γ : Type} {f : α → Except ε β} {g : α → β} {l : List α} {c : γ} :
    (l.mapM f >>= fun out => Except.ok (out, c)) = .ok (l.map g, c) ↔
      ∀ a ∈ l, f a = .ok (g a) := by
  rw [bind_eq_ok, ← mapM_eq_map]
  constructor
  · rintro ⟨out, hout, heq⟩
    rw [hout, (Prod.mk.inj (Except.ok.inj heq)).1]
  · intro h
    exact ⟨_, h, rfl⟩

/-- **A global range reads back exactly when its envelopes have their own identities.** -/
theorem eventsSinceGlobal_iff (hev : db.events = es.map EventEnvelope.storedRow)
    (hserde : ∀ e ∈ es, e.payload.Faithful) (afterOffset limit : Nat) :
    eventsSinceGlobal db afterOffset limit
        = .ok (rangeAnswer afterOffset (envelopesSince es (fun _ => true) afterOffset limit)) ↔
      ∀ x ∈ envelopesSince es (fun _ => true) afterOffset limit, OwnIds x.1 := by
  have hsel := selectSince_eq hev (fun _ => true) afterOffset limit
  rw [eventsSinceGlobal]
  simp only [hsel, mapM_map, lastOffset_map, pure_eq_ok]
  rw [rangeAnswer, mapM_resume_iff]
  refine forall₂_congr (fun x hx => ?_)
  exact reconstructEnvelope_iff (hserde x.1 (mem_of_envelopesSince hx).1)

def sessionRange (es : List EventEnvelope) (sessionId : String) (afterOffset limit : Nat) :
    List (EventEnvelope × Nat) :=
  envelopesSince es (fun e => e.sessionId.toText = sessionId) afterOffset limit

/-- The range of a session reads back when its envelopes have their own identities and
no payload object. -/
theorem sessionEventsSince_ok (hev : db.events = es.map EventEnvelope.storedRow)
    (hserde : ∀ e ∈ es, e.payload.Faithful) {sessionId : String} {afterOffset limit : Nat}
    (hown : ∀ x ∈ sessionRange es sessionId afterOffset limit,
      OwnIds x.1 ∧ x.1.payloadObjectHash = none) :
    sessionEventsSince db sessionId afterOffset limit
      = .ok (rangeAnswer afterOffset (sessionRange es sessionId afterOffset limit)) := by
  have hsel : limitTo (asI64 limit)
      (selectSince db (fun r => r.sessionId = sessionId) (asI64 afterOffset))
      = (sessionRange es sessionId afterOffset limit).map (Prod.map EventEnvelope.storedRow id) :=
    selectSince_eq hev (fun r => r.sessionId = sessionId) afterOffset limit
  rw [sessionEventsSince]
  simp only [hsel, mapM_map, lastOffset_map, pure_eq_ok]
  rw [rangeAnswer, mapM_resume_iff]
  intro x hx
  obtain ⟨hids, hnone⟩ := hown x hx
  have hread := (reconstructEnvelope_iff (hserde x.1 (mem_of_envelopesSince hx).1)).mpr hids
  simp only [Prod.map_fst, Function.comp, hread, ok_bind]
  rw [← hnone]

/-! ### Every run -/

theorem ownIds_execute {command : Command} {o : Oracle} :
    ∀ e ∈ accepted db (.execute command o), OwnIds e ∧ e.payloadObjectHash = none :=
  fun _ he => ⟨(acceptedPlan_core he).derived, (acceptedPlan_core he).noObject⟩

/-- **What is written with its own identities reads back as it was written**, and its
stream verifies.  An aggregate, or a range of the log, is read back exactly when all its
envelopes have their own identities; a session's range when they have no payload object
besides.  Every envelope of the command path is of this kind. -/
theorem readsBack_of_ownIds (ops : List Op)
    (hserde : ∀ e ∈ written .empty ops, e.payload.Faithful) :
    (∀ e ∈ written .empty ops, reconstructEnvelope e.storedRow = .ok e ↔ OwnIds e) ∧
    (∀ aggregateId, load (Db.after ops) aggregateId
        = .ok (envelopesOf aggregateId (written .empty ops)) ↔
      ∀ e ∈ envelopesOf aggregateId (written .empty ops), OwnIds e) ∧
    (∀ aggregateId, (∀ e ∈ envelopesOf aggregateId (written .empty ops), OwnIds e) →
      verifyStream (Db.after ops) aggregateId = .ok ()) ∧
    (∀ afterOffset limit, eventsSinceGlobal (Db.after ops) afterOffset limit
        = .ok (rangeAnswer afterOffset
          (envelopesSince (written .empty ops) (fun _ => true) afterOffset limit)) ↔
      ∀ x ∈ envelopesSince (written .empty ops) (fun _ => true) afterOffset limit, OwnIds x.1) ∧
    (∀ sessionId afterOffset limit,
      (∀ x ∈ sessionRange (written .empty ops) sessionId afterOffset limit,
        OwnIds x.1 ∧ x.1.payloadObjectHash = none) →
      sessionEventsSince (Db.after ops) sessionId afterOffset limit = .ok (rangeAnswer afterOffset
        (sessionRange (written .empty ops) sessionId afterOffset limit))) ∧
    (∀ e ∈ written .empty ops, e.verifyIntegrity = true) ∧
    ∀ command o, ∀ e ∈ accepted (Db.after ops) (.execute command o),
      OwnIds e ∧ e.payloadObjectHash = none := by
  have hg := after_gapless ops
  have hev := after_events ops
  have hv : ∀ e ∈ written .empty ops, e.verifyIntegrity = true :=
    (run_written ops gapless_nil).verified
  refine ⟨fun e he => reconstructEnvelope_iff (hserde e he), load_iff hg hev hserde,
    fun aggregateId => verifyStream_ok hg hev hserde hv, eventsSinceGlobal_iff hev hserde,
    fun sessionId afterOffset limit => ?_, hv, fun command o => ownIds_execute⟩
  exact sessionEventsSince_ok hev hserde

def sessionWithTask : List Call :=
  sampleCalls [.createSession "s", .createTask ⟨.ofNat 0⟩ "title" "prompt" none none none]

/-- Both read back, and the task's stream verifies. -/
theorem readsBack_sessionWithTask :
    let ops := sessionWithTask.map Call.op
    (Db.after ops).events.length = 2 ∧
      eventsSinceGlobal (Db.after ops) 0 10
        = .ok (rangeAnswer 0 (envelopesSince (written .empty ops) (fun _ => true) 0 10)) ∧
      verifyStream (Db.after ops) (Id.toText (⟨.ofNat 3⟩ : TaskId)) = .ok () := by
  intro ops
  have hcore : ∀ e ∈ written .empty ops, Core e := written_core sessionWithTask
  have hreads := readsBack_of_ownIds ops (fun e he => (hcore e he).faithful)
  refine ⟨?_, (hreads.2.2.2.1 0 10).mpr ?_, hreads.2.2.1 _ ?_⟩
  · rw [← afterCalls_eq, afterCalls_eval]
    decide +kernel
  · intro x hx
    exact (hcore x.1 (mem_of_envelopesSince hx).1).derived
  · intro e he
    exact (hcore e (mem_stream.mp he).1).derived

/-! ### An envelope with another identity -/

/-- The creation of a session, carrying the identity of a task. -/
def strayTaskId : EventEnvelope :=
  { envelopeFor ⟨.ofNat 1, "2026-01-01T00:00:00.000Z"⟩ .session
      (Id.toText (⟨.ofNat 0⟩ : SessionId)) ⟨.ofNat 0⟩ (.sessionCreated "s") with
    taskId := some ⟨.ofNat 7⟩, sequence := 1 }.sealed

/-- It is accepted, and its stream does not read back as it was written. -/
theorem not_readsBack_strayTaskId :
    let ops : List Op := [.append [strayTaskId]]
    (∀ e ∈ written .empty ops, e.payload.Faithful) ∧ written .empty ops = [strayTaskId] ∧
      load (Db.after ops) strayTaskId.aggregateId
        ≠ .ok (envelopesOf strayTaskId.aggregateId (written .empty ops)) := by
  intro ops
  have hloop : appendLoop .empty [] [strayTaskId] = .ok _ :=
    appendLoop_single gapless_nil rfl not_mem_nil (EventEnvelope.verifyIntegrity_sealed _) rfl
  have hok : (append .empty [strayTaskId]).2 = .ok () := by
    rw [append, if_neg (cons_ne_nil _ _), hloop]
    rfl
  have hw : written .empty ops = [strayTaskId] := by
    rw [written, accepted, hok]
    rfl
  have hserde : ∀ e ∈ written .empty ops, e.payload.Faithful := by
    rw [hw]
    intro e he
    rw [mem_singleton.mp he]
    trivial
  refine ⟨hserde, hw, fun hload => ?_⟩
  have hown := (load_iff (after_gapless ops) (after_events ops) hserde _).mp hload strayTaskId
    (by rw [hw]; exact mem_stream.mpr ⟨mem_singleton_self _, rfl⟩)
  have hids : strayTaskId.ids = {} := (Except.ok.inj hown).symm
  exact absurd (congrArg EnvelopeIds.taskId hids) (by simp [strayTaskId, EventEnvelope.ids,
    EventEnvelope.sealed])

end Modbit
