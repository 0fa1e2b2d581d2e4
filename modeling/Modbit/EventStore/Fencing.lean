import Mathlib.Data.List.Induction
import Modbit.EventStore.System

/-!
# Fenced writers

Writers acquire the lease of a session and append under it.  `returned` lists the leases that a run
has returned for a session; the lease table holds the last one, and their generations count
`1, 2, …, n` (`leases_inv`).  An append that writes anything was therefore made under the lease of
the most recent acquisition, and one that fails writes nothing.

The fence is checked for the session the caller names, not for the sessions of the batch.
`fencedRun_of_admits`: in every run whose current writers append events of their own session to
streams of their own session, every writer stays in its session.
-/

namespace Modbit

open Lib List

/-! ### The leases a run returned -/

def leaseOn (sessionId : String) : Op × Reply → Option Lease
  | (.acquireLease s _ _ _, .leased lease) => if s = sessionId then some lease else none
  | _ => none

/-- The leases the acquisitions on a session returned, in order. -/
def returned (sessionId : String) (ops : List Op) : List Lease :=
  (ops.zip (replies step .empty ops)).filterMap (leaseOn sessionId)

theorem returned_concat (sessionId : String) (ops : List Op) (op : Op) :
    returned sessionId (ops ++ [op])
      = returned sessionId ops ++ (leaseOn sessionId (op, (step (Db.after ops) op).2)).toList := by
  have hlen : ops.length = (replies step Db.empty ops).length := (replies_length _ _).symm
  rw [returned, replies_concat, zip_append hlen, filterMap_append, ← returned]
  rfl

variable {db : Db} {s : String} {op : Op}

theorem returned_other {sessionId : String} {ops : List Op}
    (hother : ∀ l owner now, op ≠ .acquireLease sessionId l owner now) :
    returned sessionId (ops ++ [op]) = returned sessionId ops := by
  have hnone : leaseOn sessionId (op, (step (Db.after ops) op).2) = none := by
    cases op with
    | acquireLease s l w n =>
      have hs : s ≠ sessionId := fun h => hother l w n (h ▸ rfl)
      exact if_neg hs
    | _ => rfl
  rw [returned_concat, hnone, Option.toList_none, append_nil]

theorem returned_acquire (sessionId l owner now : String) (ops : List Op) :
    returned sessionId (ops ++ [.acquireLease sessionId l owner now])
      = returned sessionId ops ++ [⟨l, Leases.nextGeneration (Db.after ops) sessionId⟩] := by
  have hsome : leaseOn sessionId (.acquireLease sessionId l owner now,
      (step (Db.after ops) (.acquireLease sessionId l owner now)).2)
      = some ⟨l, Leases.nextGeneration (Db.after ops) sessionId⟩ := if_pos rfl
  rw [returned_concat, hsome, Option.toList_some]

variable {db : Db} {s : String}

theorem current_step (hg : GaplessLog db.events)
    (hother : ∀ l owner now, op ≠ .acquireLease s l owner now) :
    Leases.current (step db op).1 s = Leases.current db s := by
  have hsame : ∀ {db' : Db}, db'.sessionLeases = db.sessionLeases →
      Leases.current db' s = Leases.current db s := by
    intro db' h
    rw [Leases.current, h, Leases.current]
  cases op with
  | append es => exact hsame (append_allOrNothing hg es).sameRegistries.1
  | appendWithLease t l es => exact hsame (appendWithLease_allOrNothing hg t l es).sameRegistries.1
  | execute c o => exact hsame (execute_sameRegistries db c o).1
  | acquireLease t l w n =>
    exact Leases.current_acquire_other (fun h => hother l w n (h ▸ rfl))
  | acquireScope t r p => exact hsame (WriteScopes.acquire_frame db t r p).2.2
  | releaseScope t => rfl

/-- The table holds the last lease returned, and the generations count. -/
structure LeasesInv (ops : List Op) (s : String) : Prop where
  current : Leases.current (Db.after ops) s = (returned s ops).getLast?
  generations : (returned s ops).map Lease.generation = List.range' 1 (returned s ops).length

theorem LeasesInv.nextGeneration {ops : List Op} (h : LeasesInv ops s) :
    Leases.nextGeneration (Db.after ops) s = (returned s ops).length + 1 := by
  rw [Leases.nextGeneration, h.current]
  cases hlast : (returned s ops).getLast? with
  | none => rw [getLast?_eq_none_iff.mp hlast]; rfl
  | some lease =>
    have hgen : ((returned s ops).map Lease.generation).getLast? = some lease.generation := by
      rw [getLast?_map, hlast]
      rfl
    rw [h.generations] at hgen
    have hlen : 0 < (returned s ops).length :=
      length_pos_of_mem (mem_of_getLast? hlast)
    rw [getLast?_range', if_neg (by omega)] at hgen
    have hval := Option.some.inj hgen
    simp only
    omega

/-- **The lease table holds the last lease returned**, after every list of calls. -/
theorem leases_inv (ops : List Op) (s : String) : LeasesInv ops s := by
  induction ops using List.reverseRecOn with
  | nil => exact ⟨rfl, rfl⟩
  | append_singleton ops op ih =>
    by_cases hop : ∃ l owner now, op = .acquireLease s l owner now
    · obtain ⟨l, owner, now, rfl⟩ := hop
      have hret := returned_acquire s l owner now ops
      refine ⟨?_, ?_⟩
      · rw [after_concat, hret, getLast?_concat]
        exact Leases.current_acquire_self
      · rw [hret, map_append, ih.generations, length_append, length_singleton,
          range'_concat, ih.nextGeneration]
        simp [Nat.add_comm]
    · have hother : ∀ l owner now, op ≠ .acquireLease s l owner now :=
        fun l owner now h => hop ⟨l, owner, now, h⟩
      refine ⟨?_, ?_⟩
      · rw [after_concat, current_step (after_gapless ops) hother, returned_other hother,
          ih.current]
      · rw [returned_other hother, ih.generations]

/-! ### Writers and their sessions -/

/-- What a fenced append in the run `pre` must do.  It writes only under the lease the
most recent acquisition on the session returned; what it writes is of the session, and no
stream with an event of another session grows; if it fails, events and projections stay. -/
structure FencedCall (pre : List Op) (s l : String) (es : List EventEnvelope) : Prop where
  holder : (appendWithLease (Db.after pre) s l es).1.events ≠ (Db.after pre).events →
    ∃ g, (returned s pre).getLast? = some ⟨l, g⟩
  own : ∀ r ∈ (appendWithLease (Db.after pre) s l es).1.events.drop (Db.after pre).events.length,
    r.sessionId = s
  others : ∀ r ∈ (Db.after pre).events, r.sessionId ≠ s →
    EventRow.streamOf r.aggregateId (appendWithLease (Db.after pre) s l es).1.events
      = EventRow.streamOf r.aggregateId (Db.after pre).events
  atomic : ∀ x, (appendWithLease (Db.after pre) s l es).2 = .error x →
    (appendWithLease (Db.after pre) s l es).1.events = (Db.after pre).events ∧
      (appendWithLease (Db.after pre) s l es).1.projections = (Db.after pre).projections

/-- Generations increase, and every fenced append of the run does what it must. -/
structure FencedRun (ops : List Op) : Prop where
  increasing : ∀ s, (returned s ops).Pairwise (fun a b => a.generation < b.generation)
  calls : ∀ pre s l es post, ops = pre ++ .appendWithLease s l es :: post → FencedCall pre s l es

def streamSession (db : Db) (aggregateId : String) : Option String :=
  (EventRow.streamOf aggregateId db.events).head?.map EventRow.sessionId

/-- The calls of a run of writers.  A current writer's batch is of its session, and so
are the streams it extends. -/
def OwnStreams (db : Db) : Op → Prop
  | .acquireLease _ _ _ _ => True
  | .appendWithLease s l es => Leases.isCurrent db s l = true →
      ∀ e ∈ es, e.sessionId.toText = s ∧ ∀ t ∈ streamSession db e.aggregateId, t = s
  | _ => False

def OneSession (events : List EventRow) : Prop :=
  ∀ r ∈ events, ∀ r' ∈ events, r.aggregateId = r'.aggregateId → r.sessionId = r'.sessionId

variable {l : String} {es : List EventEnvelope}

theorem OneSession.streamSession_eq (h : OneSession db.events) {r : EventRow}
    (hr : r ∈ db.events) : streamSession db r.aggregateId = some r.sessionId := by
  have hmem : r ∈ EventRow.streamOf r.aggregateId db.events := mem_stream.mpr ⟨hr, rfl⟩
  rw [streamSession]
  cases hhead : (EventRow.streamOf r.aggregateId db.events).head? with
  | none => rw [head?_eq_none_iff.mp hhead] at hmem; cases hmem
  | some r' =>
    obtain ⟨hr', hid⟩ := mem_stream.mp (mem_of_head? hhead)
    exact congrArg some (h r' hr' r hr hid)

theorem appendWithLease_adds (hg : GaplessLog db.events) (s l : String)
    (es : List EventEnvelope) :
    (appendWithLease db s l es).1.events = db.events ∨
      (Leases.isCurrent db s l = true ∧
        (appendWithLease db s l es).1.events = db.events ++ es.map EventEnvelope.storedRow) := by
  rcases appendWithLease_allOrNothing hg s l es with ⟨_, hw⟩ | ⟨_, hdb⟩
  · by_cases hcur : Leases.isCurrent db s l = true
    · exact Or.inr ⟨hcur, by rw [hw.eq]⟩
    · left
      rw [appendWithLease]
      split
      · rfl
      · rw [if_pos (Bool.eq_false_iff.mpr hcur)]
  · exact Or.inl (by rw [hdb])

theorem OneSession.append (h : OneSession db.events)
    (hown : ∀ e ∈ es, e.sessionId.toText = s ∧ ∀ t ∈ streamSession db e.aggregateId, t = s) :
    OneSession (db.events ++ es.map EventEnvelope.storedRow) := by
  have hold : ∀ r ∈ db.events, ∀ e ∈ es, r.aggregateId = e.aggregateId → r.sessionId = s := by
    intro r hr e he hid
    exact (hown e he).2 _ (hid ▸ h.streamSession_eq hr)
  intro r hr r' hr' hid
  rcases mem_append.mp hr with hr | hr <;> rcases mem_append.mp hr' with hr' | hr'
  · exact h r hr r' hr' hid
  · obtain ⟨e, he, rfl⟩ := mem_map.mp hr'
    exact (hold r hr e he hid).trans (hown e he).1.symm
  · obtain ⟨e, he, rfl⟩ := mem_map.mp hr
    exact (hown e he).1.trans (hold r' hr' e he hid.symm).symm
  · obtain ⟨e, he, rfl⟩ := mem_map.mp hr
    obtain ⟨e', he', rfl⟩ := mem_map.mp hr'
    exact (hown e he).1.trans (hown e' he').1.symm

theorem step_oneSession (hg : GaplessLog db.events) (h : OneSession db.events)
    (hok : OwnStreams db op) : OneSession (step db op).1.events := by
  cases op with
  | acquireLease s l w n => exact h
  | appendWithLease s l es =>
    show OneSession (appendWithLease db s l es).1.events
    rcases appendWithLease_adds hg s l es with hsame | ⟨hcur, hadd⟩
    · rw [hsame]
      exact h
    · rw [hadd]
      exact h.append (hok hcur)
  | append es => exact hok.elim
  | execute c o => exact hok.elim
  | acquireScope t r p => exact hok.elim
  | releaseScope t => exact hok.elim

theorem oneSession_of_path (h : Path step OwnStreams Db.empty db) : OneSession db.events := by
  have hempty : OneSession Db.empty.events := fun r hr => by cases hr
  refine h.invariant_run (I := fun db => OneSession db.events) hempty ?_
  intro ops op hone hok
  exact step_oneSession (after_gapless ops) hone hok

theorem streamOf_append_other {r : EventRow} (h : OneSession db.events) (hr : r ∈ db.events)
    (hne : r.sessionId ≠ s) (hown : ∀ e ∈ es, ∀ t ∈ streamSession db e.aggregateId, t = s) :
    EventRow.streamOf r.aggregateId (db.events ++ es.map EventEnvelope.storedRow)
      = EventRow.streamOf r.aggregateId db.events := by
  have hnone : stream EventRow.aggregateId r.aggregateId (es.map EventEnvelope.storedRow) = [] := by
    refine eq_nil_iff_forall_not_mem.mpr (fun x hx => ?_)
    obtain ⟨hmem, hid⟩ := mem_stream.mp hx
    obtain ⟨e, he, rfl⟩ := mem_map.mp hmem
    refine hne (hown e he r.sessionId ?_)
    have hsession := h.streamSession_eq hr
    rwa [← hid] at hsession
  rw [EventRow.streamOf, stream_append, hnone, append_nil]

/-- **A current writer in its session.** -/
theorem fencedCall_of_ownStreams {pre : List Op} (h : OneSession (Db.after pre).events)
    (hok : OwnStreams (Db.after pre) (.appendWithLease s l es)) : FencedCall pre s l es := by
  have hg := after_gapless pre
  have hadds := appendWithLease_adds hg s l es
  refine ⟨fun hne => ?_, ?_, fun r hr hother => ?_, fun x hx => ?_⟩
  · obtain ⟨hcur, _⟩ := hadds.resolve_left hne
    obtain ⟨g, hg⟩ := Leases.isCurrent_iff.mp hcur
    exact ⟨g, (leases_inv pre s).current ▸ hg⟩
  · rcases hadds with hsame | ⟨hcur, hadd⟩
    · rw [hsame, drop_length]
      intro r hr
      cases hr
    · rw [hadd, drop_left]
      intro r hr
      obtain ⟨e, he, rfl⟩ := mem_map.mp hr
      exact (hok hcur e he).1
  · rcases hadds with hsame | ⟨hcur, hadd⟩
    · rw [hsame]
    · rw [hadd]
      exact streamOf_append_other h hr hother (fun e he => (hok hcur e he).2)
  · rcases appendWithLease_allOrNothing hg s l es with ⟨hokr, _⟩ | ⟨_, hdb⟩
    · rw [hokr] at hx
      cases hx
    · rw [hdb]
      exact ⟨rfl, rfl⟩

theorem generations_increasing (ops : List Op) (s : String) :
    (returned s ops).Pairwise (fun a b => a.generation < b.generation) := by
  have hgen : ((returned s ops).map Lease.generation).Pairwise (· < ·) := by
    rw [(leases_inv ops s).generations]
    exact pairwise_lt_range'
  exact pairwise_map.mp hgen

/-- **Writers that keep to their own streams are fenced**, in every order of
acquisitions and appends. -/
theorem fencedRun_of_admits (ops : List Op) (h : Admits step OwnStreams .empty ops) :
    FencedRun ops := by
  refine ⟨generations_increasing ops, ?_⟩
  rintro pre s l es post rfl
  obtain ⟨hpre, hrest⟩ := admits_append.mp h
  exact fencedCall_of_ownStreams (oneSession_of_path (path_of_admits pre hpre)) hrest.1

/-! ### Two writers -/

def sessionA : SessionId := ⟨.ofNat 0⟩

def sessionB : SessionId := ⟨.ofNat 1⟩

def created (sessionId : SessionId) : EventEnvelope :=
  sessionEnvelope ⟨.ofNat 2, "2026-01-01T00:00:00.000Z"⟩ sessionId (.sessionCreated "s") 1

/-- A session's lease passes from one writer to another; both append. -/
def staleWriter : List Op :=
  [.acquireLease sessionA.toText "lease-1" "one" "now",
    .acquireLease sessionA.toText "lease-2" "two" "now",
    .appendWithLease sessionA.toText "lease-1" [created sessionA],
    .appendWithLease sessionA.toText "lease-2" [created sessionA]]

instance : ∀ op, Decidable (OwnStreams db op)
  | .acquireLease _ _ _ _ => .isTrue trivial
  | .appendWithLease s l es => inferInstanceAs (Decidable (Leases.isCurrent db s l = true →
      ∀ e ∈ es, e.sessionId.toText = s ∧ ∀ t ∈ streamSession db e.aggregateId, t = s))
  | .append _ | .execute _ _ | .acquireScope _ _ _ | .releaseScope _ => .isFalse id

theorem fencedRun_staleWriter : FencedRun staleWriter :=
  fencedRun_of_admits staleWriter (by decide +kernel)

/-- Two sessions with a writer each; the first one appends to the second session. -/
def strayWriter : List Op :=
  [.acquireLease sessionB.toText "lease-b" "two" "now",
    .acquireLease sessionA.toText "lease-a" "one" "now",
    .appendWithLease sessionA.toText "lease-a" [created sessionB]]

/-- The append under the first session's lease commits the second session's event. -/
theorem not_fencedRun_strayWriter : ¬ FencedRun strayWriter := by
  intro h
  have hcall := h.calls (strayWriter.take 2) sessionA.toText "lease-a" [created sessionB] [] rfl
  have hloop : appendLoop (Db.after (strayWriter.take 2)) [] [created sessionB] = .ok _ :=
    appendLoop_single gapless_nil rfl not_mem_nil (EventEnvelope.verifyIntegrity_sealed _) rfl
  have hcur : Leases.isCurrent (Db.after (strayWriter.take 2)) sessionA.toText "lease-a"
      = true := by decide +kernel
  have hown := hcall.own (created sessionB).storedRow (by
    rw [appendWithLease, if_neg (cons_ne_nil _ _), if_neg (by simp [hcur]), hloop]
    exact mem_singleton_self _)
  have hne : sessionB.toText ≠ sessionA.toText := by decide +kernel
  exact hne hown

end Modbit
