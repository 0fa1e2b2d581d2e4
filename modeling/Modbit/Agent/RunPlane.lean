import Modbit.EventStore.Rejection
import Modbit.Lib.OrdMap
import Modbit.Lib.Run
import Modbit.Lib.Tickets
import Mathlib.Data.String.Basic

/-!
# The run plane

The observer of a run, its output sink and its journal writers append to the same aggregates.  Each
of their calls takes the next sequence number of its aggregate from a shared map, and later makes
its store call with it: two steps, with those of other calls in between.  The number is not given
back when the store call fails.

The numbers that are out are those from the aggregate's next sequence to the map's counter
(`Outstanding`).  `run_plane_sound`: no event is lost, as long as the store calls of an aggregate
come in the order of their reservations and none of them has failed.
-/

namespace Modbit

open Lib List

namespace RunPlane

/-! ### The writers -/

inductive PlaneAggregate where
  | run | turn | runStep
  deriving DecidableEq

def PlaneAggregate.aggregateType : PlaneAggregate → AggregateType
  | .run => .run
  | .turn => .turn
  | .runStep => .runStep

/-- What is written, by which writer.  The observer draws an identity where the aggregate's is not
one. -/
inductive Write where
  | observer (aggregate : PlaneAggregate) (aggregateId : String) (drawn : Uuid) (payload : DomainEvent)
  | runEvent (runId : RunId) (payload : DomainEvent)
  | chunk (runId : RunId) (payload : DomainEvent)

def scheduler : Actor := ⟨.system, "scheduler"⟩

/-- `EventStoreObserver::append`: the envelope carries only the aggregate's own identity. -/
def observerEnvelope (stamp : Stamp) (sessionId : SessionId) (aggregate : PlaneAggregate)
    (aggregateId : String) (drawn : Uuid) (payload : DomainEvent) : EventEnvelope :=
  let e := { envelopeFor stamp aggregate.aggregateType aggregateId sessionId payload with
    actor := scheduler }
  match aggregate with
  | .run => { e with runId := some ((Id.parse aggregateId).getD ⟨drawn⟩) }
  | .turn => { e with turnId := some ((Id.parse aggregateId).getD ⟨drawn⟩) }
  | .runStep => { e with stepId := some ((Id.parse aggregateId).getD ⟨drawn⟩) }

/-- The envelope of `append_run_event` and of `append_chunk`. -/
def runEnvelope (stamp : Stamp) (sessionId : SessionId) (runId : RunId) (payload : DomainEvent) :
    EventEnvelope :=
  { envelopeFor stamp .run runId.toText sessionId payload with
    runId := some runId, actor := scheduler }

def Write.envelope (stamp : Stamp) (sessionId : SessionId) : Write → EventEnvelope
  | .observer aggregate aggregateId drawn payload =>
    observerEnvelope stamp sessionId aggregate aggregateId drawn payload
  | .runEvent runId payload => runEnvelope stamp sessionId runId payload
  | .chunk runId payload => runEnvelope stamp sessionId runId payload

/-! ### The shared state -/

/-- A store call that has returned: the event, what the environment made of the call, the next
sequence of the aggregate when it was made, and its result. -/
structure Returned where
  event : EventEnvelope
  fault : Option StoreError
  next : Nat
  result : Except StoreError Unit

structure Plane where
  db : Db
  sessionId : SessionId
  lease : Option (SessionId × String)
  /-- The numbers that come next. -/
  sequences : OrdMap String Nat
  /-- Events with a number whose store call is still to be made. -/
  inFlight : List EventEnvelope
  fenced : Bool
  returned : List Returned

inductive Event where
  | reserve (w : Write) (stamp : Stamp)
  | append (i : Nat) (fault : Option StoreError)

/-- `append_fenced`, where the environment lets the call through. -/
def appendFenced (db : Db) (lease : Option (SessionId × String)) (e : EventEnvelope) :
    Db × Except StoreError Unit :=
  match lease with
  | some (sessionId, leaseId) => appendWithLease db sessionId.toText leaseId [e]
  | none => append db [e]

/-- A store call, or its failure for a reason outside. -/
def storeCall (db : Db) (lease : Option (SessionId × String)) (e : EventEnvelope) :
    Option StoreError → Db × Except StoreError Unit
  | some fault => (db, .error fault)
  | none => appendFenced db lease e

def isStaleLease : Except StoreError Unit → Bool
  | .error (.staleLease _ _) => true
  | _ => false

def next (p : Plane) (aggregateId : String) : Nat := (p.sequences.find? aggregateId).getD 1

def reserved (p : Plane) (w : Write) (stamp : Stamp) : EventEnvelope :=
  let e := w.envelope stamp p.sessionId
  { e with sequence := next p e.aggregateId }.sealed

def step (p : Plane) : Event → Plane × Except StoreError Unit
  | .reserve w stamp =>
    let e := reserved p w stamp
    ({ p with
       sequences := p.sequences.insert e.aggregateId (e.sequence + 1)
       inFlight := p.inFlight ++ [e] }, .ok ())
  | .append i fault =>
    match p.inFlight[i]? with
    | none => (p, .ok ())
    | some e =>
      let out := storeCall p.db p.lease e fault
      ({ p with
         db := out.1
         inFlight := p.inFlight.eraseIdx i
         fenced := p.fenced || isStaleLease out.2
         returned := p.returned ++ [⟨e, fault, nextSequence p.db e.aggregateId, out.2⟩] }, out.2)

def start (db : Db) (sessionId : SessionId) (lease : Option (SessionId × String)) : Plane :=
  ⟨db, sessionId, lease, .empty, [], false, []⟩

/-- Every event whose store call the environment let through is committed, at the sequence that was
next for its aggregate. -/
def Sound (p : Plane) : Prop :=
  ∀ r ∈ p.returned, r.fault = none →
    r.result = .ok () ∧ r.event.sequence = r.next ∧ r.event.storedRow ∈ p.db.events

/-- No store call of the aggregate has failed. -/
def Unfailed (p : Plane) (aggregateId : String) : Prop :=
  ∀ r ∈ p.returned, r.event.aggregateId = aggregateId → r.fault = none

/-- A reservation draws a new event id, and an aggregate it is the first of is new.  A store call
that is let through has its lease, is the earliest of its aggregate, and comes after no failed
one. -/
def InOrder (p : Plane) : Event → Prop
  | .reserve w stamp => stamp.eventId.toText ∉ p.db.events.map EventRow.eventId
      ∧ stamp.eventId.toText ∉ p.inFlight.map EventEnvelope.eventId
      ∧ (p.sequences.find? (reserved p w stamp).aggregateId = none →
        (reserved p w stamp).aggregateId ∉ p.db.events.map EventRow.aggregateId)
  | .append i fault => fault = none → ∀ e ∈ p.inFlight[i]?,
      (∀ l ∈ p.lease, Leases.isCurrent p.db l.1.toText l.2 = true)
      ∧ (∀ e' ∈ p.inFlight.eraseIdx i, e'.aggregateId = e.aggregateId → e.sequence ≤ e'.sequence)
      ∧ Unfailed p e.aggregateId

/-! ### What a step keeps -/

def numbers (es : List EventEnvelope) (aggregateId : String) : List Nat :=
  (es.filter (fun e => e.aggregateId = aggregateId)).map EventEnvelope.sequence

/-- Sealed events of the run plane, with ids of their own. -/
structure Ready (p : Plane) : Prop where
  verified : ∀ e ∈ p.inFlight, e.verifyIntegrity = true
  unprojected : ∀ e ∈ p.inFlight, ∀ q, project q e = .ok q
  nodup : (p.inFlight.map EventEnvelope.eventId).Nodup
  new : ∀ e ∈ p.inFlight, e.eventId ∉ p.db.events.map EventRow.eventId

structure Good (p : Plane) : Prop where
  gapless : GaplessLog p.db.events
  ready : Ready p
  /-- The numbers that are out are the next ones of the aggregate. -/
  outstanding : ∀ a n, p.sequences.find? a = some n → Unfailed p a →
    Outstanding (numbers p.inFlight a) (nextSequence p.db a) n
  registered : ∀ e ∈ p.inFlight, p.sequences.find? e.aggregateId ≠ none
  sound : Sound p

variable {p : Plane} {w : Write} {stamp : Stamp} {e : EventEnvelope}

theorem reserved_spec (p : Plane) (w : Write) (stamp : Stamp) :
    (reserved p w stamp).eventId = stamp.eventId.toText
      ∧ (reserved p w stamp).sequence = next p (reserved p w stamp).aggregateId
      ∧ ∀ q, project q (reserved p w stamp) = .ok q := by
  cases w with
  | observer aggregate aggregateId drawn payload =>
    cases aggregate with
    | run => exact ⟨rfl, rfl, fun _ => rfl⟩
    | turn => exact ⟨rfl, rfl, fun _ => rfl⟩
    | runStep => exact ⟨rfl, rfl, fun _ => rfl⟩
  | runEvent runId payload => exact ⟨rfl, rfl, fun _ => rfl⟩
  | chunk runId payload => exact ⟨rfl, rfl, fun _ => rfl⟩

theorem numbers_concat (es : List EventEnvelope) (e : EventEnvelope) (a : String) :
    numbers (es ++ [e]) a = numbers es a ++ if e.aggregateId = a then [e.sequence] else [] := by
  rw [numbers, filter_append, map_append]
  by_cases h : e.aggregateId = a
  · rw [if_pos h, filter_cons_of_pos (by simpa using h)]
    rfl
  · rw [if_neg h, filter_cons_of_neg (by simpa using h)]
    rfl

theorem good_reserve (h : Good p) (hok : InOrder p (.reserve w stamp)) :
    Good (step p (.reserve w stamp)).1 := by
  obtain ⟨hnew, hfree, hfirst⟩ := hok
  obtain ⟨hid, hseq, hproj⟩ := reserved_spec p w stamp
  have hverified : (reserved p w stamp).verifyIntegrity = true := EventEnvelope.verifyIntegrity_sealed _
  rw [step]
  generalize reserved p w stamp = e at *
  rw [← hid] at hnew hfree
  refine ⟨h.gapless, ⟨?_, ?_, ?_, ?_⟩, ?_, ?_, h.sound⟩
  · exact forall_mem_append.mpr ⟨h.ready.verified, forall_mem_singleton.mpr hverified⟩
  · exact forall_mem_append.mpr ⟨h.ready.unprojected, forall_mem_singleton.mpr hproj⟩
  · rw [map_append, map_singleton, ← concat_eq_append]
    exact h.ready.nodup.concat hfree
  · exact forall_mem_append.mpr ⟨h.ready.new, forall_mem_singleton.mpr hnew⟩
  · intro a n hn hun
    have hun' : Unfailed p a := hun
    have hn' : (p.sequences.insert e.aggregateId (e.sequence + 1)).find? a = some n := hn
    rw [OrdMap.find?_insert] at hn'
    rw [numbers_concat]
    by_cases ha : a = e.aggregateId
    · subst ha
      rw [if_pos rfl] at hn' ⊢
      rw [← Option.some.inj hn']
      refine Outstanding.issue ?_
      rw [hseq, next]
      cases hfind : p.sequences.find? e.aggregateId with
      | some m => exact h.outstanding _ m hfind hun'
      | none =>
        -- the first number of a new aggregate
        have hnone : numbers p.inFlight e.aggregateId = [] := by
          rw [numbers, map_eq_nil_iff, filter_eq_nil_iff]
          intro e' he' hsame
          have hreg := h.registered e' he'
          rw [of_decide_eq_true hsame] at hreg
          exact hreg hfind
        rw [hnone, nextSequence_new (hfirst hfind)]
        exact Outstanding.nil 1
    · rw [if_neg ha] at hn'
      rw [if_neg (fun he => ha he.symm), append_nil]
      exact h.outstanding a n hn' hun'
  · intro e' he'
    rw [OrdMap.find?_insert]
    split_ifs with hsame
    · exact fun hn => (by cases hn)
    · rcases mem_append.mp he' with hmem | hmem
      · exact h.registered e' hmem
      · rw [mem_singleton.mp hmem] at hsame
        exact absurd rfl hsame

theorem numbers_perm {es es' : List EventEnvelope} (h : es.Perm es') (a : String) :
    (numbers es a).Perm (numbers es' a) := (h.filter _).map _

theorem mem_numbers {es : List EventEnvelope} {a : String} {n : Nat} :
    n ∈ numbers es a ↔ ∃ e ∈ es, e.aggregateId = a ∧ e.sequence = n := by
  simp [numbers, and_assoc]

theorem appendFenced_ok {db : Db} {lease : Option (SessionId × String)} (hg : GaplessLog db.events)
    (hlease : ∀ l ∈ lease, Leases.isCurrent db l.1.toText l.2 = true)
    (hseq : e.sequence = nextSequence db e.aggregateId)
    (hid : e.eventId ∉ db.events.map EventRow.eventId) (hv : e.verifyIntegrity = true)
    (hp : ∀ q, project q e = .ok q) :
    appendFenced db lease e = (db.extend e.storedRow db.projections, .ok ()) := by
  have hloop := appendLoop_single hg hseq hid hv (hp db.projections)
  cases lease with
  | none =>
    rw [appendFenced, append, if_neg (cons_ne_nil _ _), hloop]
    rfl
  | some l =>
    have hcurrent := hlease l rfl
    rw [appendFenced, appendWithLease, if_neg (cons_ne_nil _ _), if_neg (by simp [hcurrent]), hloop]
    rfl

variable {i : Nat}

theorem ready_erase (h : Ready p) (he : p.inFlight[i]? = some e) :
    p.inFlight.Perm (e :: p.inFlight.eraseIdx i)
      ∧ (∀ e' ∈ p.inFlight.eraseIdx i, e'.eventId ≠ e.eventId) := by
  have hperm : p.inFlight.Perm (e :: p.inFlight.eraseIdx i) := by
    obtain ⟨hi, hget⟩ := List.getElem?_eq_some_iff.mp he
    rw [← hget]
    exact (getElem_cons_eraseIdx_perm hi).symm
  refine ⟨hperm, fun e' he' hsame => ?_⟩
  have hnodup := (hperm.map EventEnvelope.eventId).nodup_iff.mp h.nodup
  rw [map_cons, nodup_cons] at hnodup
  exact hnodup.1 (hsame ▸ mem_map_of_mem he')

theorem Ready.erase {q : Plane} (h : Ready p) (he : p.inFlight[i]? = some e)
    (hq : q.inFlight = p.inFlight.eraseIdx i)
    (hrows : ∀ id ∈ q.db.events.map EventRow.eventId,
      id ∈ p.db.events.map EventRow.eventId ∨ id = e.eventId) : Ready q := by
  obtain ⟨hperm, hother⟩ := ready_erase h he
  have hsub : ∀ e' ∈ q.inFlight, e' ∈ p.inFlight := by
    intro e' he'
    rw [hq] at he'
    exact hperm.symm.subset (mem_cons_of_mem e he')
  refine ⟨fun e' he' => h.verified e' (hsub e' he'), fun e' he' => h.unprojected e' (hsub e' he'),
    ?_, fun e' he' hmem => ?_⟩
  · rw [hq]
    exact ((eraseIdx_sublist _ i).map _).nodup h.nodup
  · rcases hrows _ hmem with hold | hself
    · exact h.new e' (hsub e' he') hold
    · rw [hq] at he'
      exact hother e' he' hself

theorem numbers_erase_other {a : String} (h : Ready p) (he : p.inFlight[i]? = some e)
    (ha : e.aggregateId ≠ a) : (numbers (p.inFlight.eraseIdx i) a).Perm (numbers p.inFlight a) := by
  have hperm := numbers_perm (ready_erase h he).1 a
  rw [numbers, numbers, filter_cons_of_neg (by simpa using ha)] at hperm
  exact hperm.symm

theorem numbers_erase_self (h : Ready p) (he : p.inFlight[i]? = some e) :
    (e.sequence :: numbers (p.inFlight.eraseIdx i) e.aggregateId).Perm
      (numbers p.inFlight e.aggregateId) := by
  have hperm := numbers_perm (ready_erase h he).1 e.aggregateId
  rw [numbers, numbers, filter_cons_of_pos (by simp), map_cons] at hperm
  exact hperm.symm

theorem good_fault {x : StoreError} (h : Good p) (he : p.inFlight[i]? = some e) :
    Good (step p (.append i (some x))).1 := by
  rw [step, he]
  dsimp only [storeCall]
  refine ⟨h.gapless, h.ready.erase he rfl (fun id hid => .inl hid), ?_, ?_, ?_⟩
  · intro a n hn hun
    have ha : e.aggregateId ≠ a := by
      intro hsame
      have hfault := hun _ (mem_append_right _ mem_cons_self) hsame
      cases hfault
    have hun' : Unfailed p a := fun r hr => hun r (mem_append_left _ hr)
    exact (h.outstanding a n hn hun').congr (numbers_erase_other h.ready he ha)
  · exact fun e' he' => h.registered e' ((eraseIdx_sublist _ i).subset he')
  · intro r hr hnone
    rcases mem_append.mp hr with hold | hlast
    · exact h.sound r hold hnone
    · rw [mem_singleton.mp hlast] at hnone
      cases hnone

/-- **A store call in its turn commits its event.** -/
theorem append_commits (h : Good p) (he : p.inFlight[i]? = some e)
    (hok : InOrder p (.append i none)) :
    e.sequence = nextSequence p.db e.aggregateId
      ∧ appendFenced p.db p.lease e = (p.db.extend e.storedRow p.db.projections, .ok ())
      ∧ ∀ n, p.sequences.find? e.aggregateId = some n →
        Outstanding (numbers (p.inFlight.eraseIdx i) e.aggregateId) (e.sequence + 1) n := by
  obtain ⟨hlease, hfirst, hun⟩ := hok rfl e he
  have hmem := mem_of_getElem? he
  obtain ⟨n, hn⟩ := Option.ne_none_iff_exists'.mp (h.registered e hmem)
  have hout := (h.outstanding _ n hn hun).congr (numbers_erase_self h.ready he)
  obtain ⟨hseq, hrest⟩ := hout.serve (by
    intro m hm
    obtain ⟨e', he', hsame, rfl⟩ := mem_numbers.mp hm
    exact hfirst e' he' hsame)
  refine ⟨hseq, ?_, ?_⟩
  · exact appendFenced_ok h.gapless hlease hseq (h.ready.new e hmem) (h.ready.verified e hmem)
      (h.ready.unprojected e hmem)
  · intro m hm
    rw [hn] at hm
    rw [← Option.some.inj hm, hseq]
    exact hrest

theorem good_append (h : Good p) (he : p.inFlight[i]? = some e)
    (hok : InOrder p (.append i none)) : Good (step p (.append i none)).1 := by
  obtain ⟨hseq, hcommit, hrest⟩ := append_commits h he hok
  have hnext : e.storedRow.sequence
      = nextSeq EventRow.aggregateId EventRow.sequence e.storedRow.aggregateId p.db.events := hseq
  rw [step, he]
  dsimp only [storeCall]
  rw [hcommit]
  refine ⟨h.gapless.concat hnext, h.ready.erase he rfl ?_, ?_, ?_, ?_⟩
  · intro id hid
    have hid' : id ∈ (p.db.events ++ [e.storedRow]).map EventRow.eventId := hid
    rw [map_append, mem_append] at hid'
    exact hid'.imp_right (fun hlast => mem_singleton.mp hlast)
  · intro a n hn hun
    have hun' : Unfailed p a := fun r hr => hun r (mem_append_left _ hr)
    by_cases ha : e.aggregateId = a
    · subst ha
      have hself : nextSequence (p.db.extend e.storedRow p.db.projections) e.aggregateId
          = e.sequence + 1 := h.gapless.nextSeq_concat_self hnext
      rw [hself]
      exact hrest n hn
    · have hother : nextSequence (p.db.extend e.storedRow p.db.projections) a
          = nextSequence p.db a := nextSeq_concat_other ha
      rw [hother]
      exact (h.outstanding a n hn hun').congr (numbers_erase_other h.ready he ha)
  · exact fun e' he' => h.registered e' ((eraseIdx_sublist _ i).subset he')
  · intro r hr hnone
    rcases mem_append.mp hr with hold | hlast
    · obtain ⟨hres, hnum, hrow⟩ := h.sound r hold hnone
      exact ⟨hres, hnum, mem_append_left _ hrow⟩
    · rw [mem_singleton.mp hlast]
      exact ⟨rfl, hseq, mem_append_right _ mem_cons_self⟩

/-- **What a step keeps.** -/
theorem good_step (ev : Event) (h : Good p) (hok : InOrder p ev) : Good (step p ev).1 := by
  cases ev with
  | reserve w stamp => exact good_reserve h hok
  | append i fault =>
    cases he : p.inFlight[i]? with
    | none =>
      rw [step, he]
      exact h
    | some e =>
      cases fault with
      | some x => exact good_fault h he
      | none => exact good_append h he hok

theorem good_start {db : Db} (hg : GaplessLog db.events) (sessionId : SessionId)
    (lease : Option (SessionId × String)) : Good (start db sessionId lease) := by
  refine ⟨hg, ⟨?_, ?_, nodup_nil, ?_⟩, ?_, ?_, ?_⟩
  · exact fun e he => (by cases he)
  · exact fun e he => (by cases he)
  · exact fun e he => (by cases he)
  · exact fun a n hn => (by cases hn)
  · exact fun e he => (by cases he)
  · exact fun r hr => (by cases hr)

/-- **No event of the run plane is lost**, in every run in which the store calls of an aggregate
come in the order of their reservations and after no failed one. -/
theorem run_plane_sound (ops : List Op) (sessionId : SessionId) (lease : Option (SessionId × String))
    (evs : List Event) (h : Admits step InOrder (start (Db.after ops) sessionId lease) evs) :
    Sound (run step (start (Db.after ops) sessionId lease) evs) := by
  have hgood := good_start (after_gapless ops) sessionId lease
  exact ((path_of_admits evs h).invariant hgood (fun _ ev hp hok => good_step ev hp hok)).sound

/-! ### Lost events -/

def sampleWrite : Write := .runEvent ⟨.ofNat 7⟩ .runCompleted

def sampleStamp (n : Nat) : Stamp := ⟨.ofNat n, "2026-01-01T00:00:00.000Z"⟩

def samplePlane : Plane := start (Db.after []) ⟨.ofNat 0⟩ none

/-- Two calls, the first of which comes to the store first. -/
def inTurn : List Event :=
  [.reserve sampleWrite (sampleStamp 1), .reserve sampleWrite (sampleStamp 2), .append 0 none]

theorem run_plane_sound_inTurn :
    Admits step InOrder samplePlane inTurn ∧ Sound (run step samplePlane inTurn) := by
  have hadmits : Admits step InOrder samplePlane inTurn := by
    refine ⟨⟨?_, ?_, ?_⟩, ⟨?_, ?_, ?_⟩, ?_, trivial⟩
    · exact not_mem_nil
    · exact not_mem_nil
    · exact fun _ => not_mem_nil
    · exact not_mem_nil
    · have hne : (sampleStamp 2).eventId.toText ∉ [(sampleStamp 1).eventId.toText] := by decide
      exact hne
    · exact fun hn => (by cases hn)
    · intro _ e he
      rw [← Option.some.inj he]
      refine ⟨fun l hl => (by cases hl), fun e' he' _ => ?_, fun r hr => (by cases hr)⟩
      rw [mem_singleton.mp he']
      exact Nat.le_succ 1
  exact ⟨hadmits, run_plane_sound [] ⟨.ofNat 0⟩ none inTurn hadmits⟩

def afterFailure : List Event :=
  [.reserve sampleWrite (sampleStamp 1), .append 0 (some (.io "disk full")),
    .reserve sampleWrite (sampleStamp 2), .append 0 none]

/-- The second of two calls comes to the store before the first. -/
def overtaken : List Event :=
  [.reserve sampleWrite (sampleStamp 1), .reserve sampleWrite (sampleStamp 2), .append 1 none]

theorem not_sound_of_error {q : Plane} {x : StoreError}
    (h : q.returned.getLast?.map (fun r => (r.fault, r.result)) = some (none, .error x)) :
    ¬ Sound q := by
  intro hsound
  obtain ⟨r, hr, heq⟩ := Option.map_eq_some_iff.mp h
  obtain ⟨hfault, hresult⟩ := Prod.mk.inj heq
  have hok := (hsound r (mem_of_getLast? hr) hfault).1
  rw [hresult] at hok
  cases hok

/-- **A failed call takes the later ones of its aggregate with it, and so does a call that is
overtaken.** -/
theorem run_plane_loses : ¬ Sound (run step samplePlane afterFailure)
    ∧ ¬ Sound (run step samplePlane overtaken) := by
  refine ⟨not_sound_of_error (x := .sequenceConflict (⟨.ofNat 7⟩ : RunId).toText 2 1) rfl,
    not_sound_of_error (x := .sequenceConflict (⟨.ofNat 7⟩ : RunId).toText 2 1) rfl⟩

end RunPlane

end Modbit
