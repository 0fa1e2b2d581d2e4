import Modbit.Automation.Engine
import Modbit.EventStore.Polling

/-!
# Fires, each once

A minute is to create one task for an automation at most, and an event committed after an
automation was registered for its type is to lead to exactly one (`Once`).  The task, its queueing
and the record of the fire are separate transactions, and one key is remembered: a stop or a
failure after the task was created leaves it unrecorded, a clock that comes back to an earlier
minute finds another key, and several events since the last fire share one task.

`Clear` excludes the first two kinds of step, and `Single` the third.  `once_run` says of every run
of clear steps that no minute and no event is answered twice, that a tick that ends without an
error has answered all that were there when it began, and that events that come one at a time have
each a task of its own.
-/

namespace Modbit

open Lib List

namespace Automations

/-! ### What is to hold -/

def firesAt (id key : String) (f : Fire) : Bool := f.automationId = id ∧ f.cause = .minute key

def answers (id : String) (r : Nat) (f : Fire) : Bool := f.automationId = id ∧ r ∈ f.cause.rowids

def IsMatch (db : Db) (pattern : String) (r : Nat) : Prop :=
  ∃ row, (row, r) ∈ db.events.zipIdx 1 ∧ row.eventType = pattern

/-- A row of the type that came after the registration. -/
def Later (db : Db) (registered : List (String × Nat)) (a : Automation) (r : Nat) : Prop :=
  IsMatch db a.eventPattern r ∧ ∃ n, (a.automationId, n) ∈ registered ∧ n < r

/-- An event of the automation's type that was committed after its registration. -/
def Follows (e : Engine) (a : Automation) (r : Nat) : Prop := Later e.db e.registered a r

/-- **Every minute has one task at most, and every event has one.**  An event that was passed over
has its task, and so has every event from before a tick that has ended without an error. -/
structure Once (e : Engine) : Prop where
  minutes : ∀ id key, e.fires.countP (firesAt id key) ≤ 1
  events : ∀ a ∈ e.automations, a.eventPattern ≠ "" → ∀ r, Follows e a r →
    e.fires.countP (answers a.automationId r) ≤ 1 ∧
      ((r : Int) ≤ a.consumed → e.fires.countP (answers a.automationId r) = 1)
  settled : ∀ t ∈ e.ended, t.errors = [] → t.unread = false → ∀ b ∈ t.listed, b.enabled = true →
    b.eventPattern ≠ "" → ∀ r, r ≤ t.seen → Follows e b r →
      e.fires.countP (answers b.automationId r) = 1

def Alone (e : Engine) : Prop := ∀ f ∈ e.fires, ∀ rowids, f.cause = .events rowids → rowids.length = 1

/-! ### The condition -/

/-- The cause of a task that was created and is not yet recorded. -/
def Phase.unrecorded : Phase → Option Cause
  | .resolve cause (.applied _) => some cause
  | .queue cause _ => some cause
  | .record cause _ => some cause
  | _ => none

def Unused (db : Db) (turn : Turn) : Prop :=
  Fresh db turn.oracle ∧ turn.commandId ∉ db.commandLog.map CommandLogRow.commandId

def ClearPhase (db : Db) (turn : Turn) : Phase → Prop
  | .scan => RowidsFit db
  | .create _ _ => Unused db turn
  | .resolve _ (.applied _) => turn.fault = false
  | .queue _ _ => turn.fault = false ∧ Unused db turn
  | .record _ _ => turn.fault = false
  | _ => True

/-- The clock does not come back to an earlier minute; no stop and no failure comes between the
creation of a task and the record; and no automation is registered as having consumed events that
are not there.  What commands draw is new, and rows can be numbered. -/
def Clear (e : Engine) : Event → Prop
  | .tick now _ => e.tick = none → minuteKey now ∉ e.keys ∨ e.keys.getLast? = some (minuteKey now)
  | .advance turn => ∀ t ∈ e.tick, ClearPhase e.db turn t.phase
  | .stop => ∀ t ∈ e.tick, t.phase.unrecorded = none
  | .register a _ => a.eventPattern ≠ "" → a.consumed ≤ e.db.events.length
  | _ => True

/-- An automation is not scanned when there is more than one event for it. -/
def Single (e : Engine) : Event → Prop
  | .advance _ => ∀ t ∈ e.tick, t.phase = .scan → ∀ a ∈ t.rest.head?,
      (matchingAfter e.db a.eventPattern a.consumed).length ≤ 1
  | _ => True

/-! ### Rows -/

section Rows

variable {db db' : Db} {pattern : String} {r : Nat} {consumed : Int}

/-- The store has the rows it had, and more. -/
def Grown (db db' : Db) : Prop := ∃ new, db'.events = db.events ++ new

theorem isMatch_iff : IsMatch db pattern r ↔
    1 ≤ r ∧ ∃ row, db.events[r - 1]? = some row ∧ row.eventType = pattern := by
  constructor
  · rintro ⟨row, hmem, htype⟩
    obtain ⟨hle, hrow⟩ := mem_zipIdx_iff_le_and_getElem?_sub.mp hmem
    exact ⟨hle, row, hrow, htype⟩
  · rintro ⟨hle, row, hrow, htype⟩
    exact ⟨row, mem_zipIdx_iff_le_and_getElem?_sub.mpr ⟨hle, hrow⟩, htype⟩

theorem IsMatch.le_length (h : IsMatch db pattern r) : r ≤ db.events.length := by
  obtain ⟨hle, row, hrow, -⟩ := isMatch_iff.mp h
  obtain ⟨hlt, -⟩ := List.getElem?_eq_some_iff.mp hrow
  omega

theorem Grown.le (h : Grown db db') : db.events.length ≤ db'.events.length := by
  obtain ⟨new, hnew⟩ := h
  rw [hnew, length_append]
  exact Nat.le_add_right _ _

theorem Grown.isMatch (h : Grown db db') (hm : IsMatch db pattern r) : IsMatch db' pattern r := by
  obtain ⟨new, hnew⟩ := h
  obtain ⟨hle, row, hrow, htype⟩ := isMatch_iff.mp hm
  obtain ⟨hlt, -⟩ := List.getElem?_eq_some_iff.mp hrow
  refine isMatch_iff.mpr ⟨hle, row, ?_, htype⟩
  rw [hnew, getElem?_append_left hlt, hrow]

theorem Grown.of_isMatch (h : Grown db db') (hm : IsMatch db' pattern r)
    (hold : r ≤ db.events.length) : IsMatch db pattern r := by
  obtain ⟨new, hnew⟩ := h
  obtain ⟨hle, row, hrow, htype⟩ := isMatch_iff.mp hm
  refine isMatch_iff.mpr ⟨hle, row, ?_, htype⟩
  rw [hnew, getElem?_append_left (by omega)] at hrow
  exact hrow

theorem mem_matchingAfter : r ∈ matchingAfter db pattern consumed ↔
    IsMatch db pattern r ∧ consumed < r := by
  constructor
  · intro h
    obtain ⟨⟨row, r'⟩, hmem, rfl⟩ := mem_map.mp h
    obtain ⟨hrow, hkeep⟩ := mem_filter.mp hmem
    obtain ⟨htype, hlt⟩ := of_decide_eq_true hkeep
    exact ⟨⟨row, hrow, htype⟩, hlt⟩
  · rintro ⟨⟨row, hrow, htype⟩, hlt⟩
    exact mem_map.mpr ⟨(row, r), mem_filter.mpr ⟨hrow, decide_eq_true ⟨htype, hlt⟩⟩, rfl⟩

theorem matchingAfter_increasing : (matchingAfter db pattern consumed).Pairwise (· < ·) := by
  have hidx : (db.events.zipIdx 1).Pairwise (fun a b => a.2 < b.2) := by
    have hrange : ((db.events.zipIdx 1).map Prod.snd).Pairwise (· < ·) := by
      rw [zipIdx_map_snd]
      exact pairwise_lt_range'
    exact pairwise_map.mp hrange
  exact pairwise_map.mpr (hidx.filter _)

def newest (rowids : List Nat) : Nat := rowids.getLast?.getD 0

theorem le_newest {rowids : List Nat} (h : rowids.Pairwise (· < ·)) (hr : r ∈ rowids) :
    r ≤ newest rowids := by
  rcases eq_nil_or_concat rowids with rfl | ⟨init, last, rfl⟩
  · cases hr
  · rw [concat_eq_append] at h hr ⊢
    have hlast : newest (init ++ [last]) = last := by simp [newest]
    rw [hlast]
    rcases mem_append.mp hr with hr | hr
    · exact Nat.le_of_lt ((pairwise_append.mp h).2.2 r hr last mem_cons_self)
    · exact Nat.le_of_eq (mem_singleton.mp hr)

theorem newest_mem {rowids : List Nat} (h : rowids ≠ []) : newest rowids ∈ rowids := by
  obtain ⟨last, hlast⟩ := Option.ne_none_iff_exists'.mp (mt getLast?_eq_none_iff.mp h)
  rw [newest, hlast]
  exact mem_of_getLast? hlast

end Rows

/-! ### The books

What is remembered fits with the tasks that were created, but for the one task that may have been
created and not yet been recorded. -/

def ids (table : List Automation) : List String := table.map Automation.automationId

structure Books (db : Db) (table : List Automation) (fires : List Fire) (keys : List String)
    (registered : List (String × Nat)) (pending : Option (String × Cause)) : Prop where
  nodup : (ids table).Nodup
  listed : registered.map Prod.fst = ids table
  owned : ∀ f ∈ fires, f.automationId ∈ ids table
  past : ∀ f ∈ fires, ∀ r ∈ f.cause.rowids, r ≤ db.events.length
  bounded : ∀ a ∈ table, a.eventPattern ≠ "" → a.consumed ≤ db.events.length
  kind : ∀ f ∈ fires, ∀ key, f.cause = .minute key → ∀ a ∈ table,
    a.automationId = f.automationId → a.eventPattern = ""
  minutes : ∀ id key, fires.countP (firesAt id key) ≤ 1
  keyed : ∀ f ∈ fires, ∀ key, f.cause = .minute key → key ∈ keys
  current : ∀ f ∈ fires, ∀ key, f.cause = .minute key → keys.getLast? = some key →
    (∃ a ∈ table, a.automationId = f.automationId ∧ a.lastFireKey = key) ∨
      pending = some (f.automationId, .minute key)
  answered : ∀ a ∈ table, a.eventPattern ≠ "" → ∀ r, Later db registered a r →
    fires.countP (answers a.automationId r) ≤ 1 ∧
      ((r : Int) ≤ a.consumed → fires.countP (answers a.automationId r) = 1) ∧
      (a.consumed < (r : Int) → fires.countP (answers a.automationId r) ≠ 0 →
        ∃ rowids, pending = some (a.automationId, .events rowids) ∧ r ∈ rowids)
  made : ∀ p ∈ pending, ∃ f ∈ fires, f.automationId = p.1 ∧ f.cause = p.2

variable {db db' : Db} {table : List Automation} {fires : List Fire} {keys : List String}
  {registered : List (String × Nat)} {pending : Option (String × Cause)}

theorem countP_concat {α : Type} (p : α → Bool) (l : List α) (x : α) :
    (l ++ [x]).countP p = l.countP p + if p x then 1 else 0 := by
  rw [countP_append, countP_singleton]

variable {a b : Automation}

theorem eq_of_id (h : (ids table).Nodup) (ha : a ∈ table) (hb : b ∈ table)
    (hid : a.automationId = b.automationId) : a = b := inj_on_of_nodup_map h ha hb hid

theorem Books.grow (h : Books db table fires keys registered pending) (hg : Grown db db') :
    Books db' table fires keys registered pending := by
  refine { h with
    past := fun f hf r hr => Nat.le_trans (h.past f hf r hr) hg.le
    bounded := fun a ha hp => Int.le_trans (h.bounded a ha hp) (Int.ofNat_le.mpr hg.le)
    answered := fun a ha hp r hr => ?_ }
  obtain ⟨hmatch, hlater⟩ := hr
  by_cases hold : r ≤ db.events.length
  · exact h.answered a ha hp r ⟨hg.of_isMatch hmatch hold, hlater⟩
  · have hzero : fires.countP (answers a.automationId r) = 0 := by
      refine countP_eq_zero.mpr (fun f hf hans => hold ?_)
      exact h.past f hf r (of_decide_eq_true hans).2
    have hbound := h.bounded a ha hp
    refine ⟨by omega, fun hle => absurd hle (by omega), fun _ hne => absurd hzero hne⟩

theorem Books.enable (h : Books db table fires keys registered pending) (id : String)
    (enabled : Bool) : Books db (setEnabled table id enabled) fires keys registered pending := by
  have hback : ∀ a' ∈ setEnabled table id enabled, ∃ a ∈ table,
      a'.automationId = a.automationId ∧ a'.eventPattern = a.eventPattern ∧
        a'.lastFireKey = a.lastFireKey ∧ a'.consumed = a.consumed := by
    intro a' ha'
    obtain ⟨a, ha, rfl⟩ := mem_map.mp ha'
    refine ⟨a, ha, ?_⟩
    split_ifs
    · exact ⟨rfl, rfl, rfl, rfl⟩
    · exact ⟨rfl, rfl, rfl, rfl⟩
  have hids : ids (setEnabled table id enabled) = ids table := by
    rw [ids, setEnabled, map_map]
    refine map_congr_left (fun a _ => ?_)
    dsimp only [Function.comp]
    split_ifs
    · rfl
    · rfl
  refine { h with
    nodup := hids ▸ h.nodup
    listed := h.listed.trans hids.symm
    owned := hids ▸ h.owned
    bounded := fun a' ha' hp => ?_
    kind := fun f hf key hkey a' ha' hid => ?_
    current := fun f hf key hkey hlast => ?_
    answered := fun a' ha' hp r hr => ?_ }
  · obtain ⟨a, ha, -, hpat, -, hcon⟩ := hback a' ha'
    rw [hcon]
    exact h.bounded a ha (hpat ▸ hp)
  · obtain ⟨a, ha, heq, hpat, -, -⟩ := hback a' ha'
    rw [hpat]
    exact h.kind f hf key hkey a ha (heq ▸ hid)
  · refine (h.current f hf key hkey hlast).imp_left ?_
    rintro ⟨a, ha, hid, hfire⟩
    refine ⟨_, mem_map_of_mem ha, ?_⟩
    split_ifs
    · exact ⟨hid, hfire⟩
    · exact ⟨hid, hfire⟩
  · obtain ⟨a, ha, heq, hpat, -, hcon⟩ := hback a' ha'
    rw [heq, hcon]
    rw [Later, heq, hpat] at hr
    exact h.answered a ha (hpat ▸ hp) r hr

theorem Books.register (h : Books db table fires keys registered pending)
    (hnew : a.automationId ∉ ids table)
    (hconsumed : a.eventPattern ≠ "" → a.consumed ≤ db.events.length) :
    Books db (table ++ [a]) fires keys (registered ++ [(a.automationId, db.events.length)]) pending := by
  have hcases : ∀ b ∈ table ++ [a], b ∈ table ∨ b = a := fun b hb =>
    (mem_append.mp hb).imp_right mem_singleton.mp
  have hids : ids (table ++ [a]) = ids table ++ [a.automationId] := map_append
  refine { h with
    nodup := ?_
    listed := ?_
    owned := fun f hf => hids ▸ mem_append_left _ (h.owned f hf)
    bounded := fun b hb hp => ?_
    kind := fun f hf key hkey b hb hid => ?_
    current := fun f hf key hkey hlast => ?_
    answered := fun b hb hp r hr => ?_ }
  · rw [hids]
    refine List.Nodup.append h.nodup (nodup_singleton _) ?_
    intro x hx hx'
    exact hnew (mem_singleton.mp hx' ▸ hx)
  · rw [hids, map_append, h.listed]
    rfl
  · rcases hcases b hb with hb | rfl
    · exact h.bounded b hb hp
    · exact hconsumed hp
  · rcases hcases b hb with hb | rfl
    · exact h.kind f hf key hkey b hb hid
    · exact absurd (hid ▸ h.owned f hf) hnew
  · refine (h.current f hf key hkey hlast).imp_left ?_
    rintro ⟨b, hb, hid, hfire⟩
    exact ⟨b, mem_append_left _ hb, hid, hfire⟩
  · obtain ⟨hmatch, n, hn, hlt⟩ := hr
    rcases mem_append.mp hn with hn | hn
    · have hbid : b.automationId ∈ ids table := h.listed ▸ mem_map_of_mem hn
      rcases hcases b hb with hb | rfl
      · exact h.answered b hb hp r ⟨hmatch, n, hn, hlt⟩
      · exact absurd hbid hnew
    · have hlen : n = db.events.length := congrArg Prod.snd (mem_singleton.mp hn)
      have hle := hmatch.le_length
      omega

variable {key : String}

theorem Books.begin (h : Books db table fires keys registered none)
    (hkey : key ∉ keys ∨ keys.getLast? = some key) :
    Books db table fires (keys ++ [key]) registered none := by
  refine { h with
    keyed := fun f hf k hk => mem_append_left _ (h.keyed f hf k hk)
    current := fun f hf k hk hlast => ?_ }
  have heq : key = k := by simpa using hlast
  subst heq
  rcases hkey with hnew | hlast
  · exact absurd (h.keyed f hf _ hk) hnew
  · exact h.current f hf _ hk hlast

/-- What a scan has found for an event automation: all rows of its type up to the last. -/
structure Batch (db : Db) (a : Automation) (rowids : List Nat) : Prop where
  nonempty : rowids ≠ []
  mem : ∀ r ∈ rowids, IsMatch db a.eventPattern r ∧ a.consumed < (r : Int)
  complete : ∀ r, IsMatch db a.eventPattern r → a.consumed < (r : Int) → r ≤ newest rowids →
    r ∈ rowids
  le : ∀ r ∈ rowids, r ≤ newest rowids
  fits : newest rowids < 2 ^ 63

/-- A cause that the automation has not been recorded for. -/
def Sound (db : Db) (a : Automation) (key : String) : Cause → Prop
  | .minute k => k = key ∧ a.lastFireKey ≠ k ∧ a.eventPattern = ""
  | .events rowids => a.eventPattern ≠ "" ∧ Batch db a rowids

variable {rowids : List Nat}

theorem Batch.grow (h : Batch db a rowids) (hg : Grown db db') : Batch db' a rowids := by
  refine { h with
    mem := fun r hr => ⟨hg.isMatch (h.mem r hr).1, (h.mem r hr).2⟩
    complete := fun r hmatch hlt hle => ?_ }
  have hnewest := (h.mem _ (newest_mem h.nonempty)).1.le_length
  exact h.complete r (hg.of_isMatch hmatch (Nat.le_trans hle hnewest)) hlt hle

theorem Sound.grow {cause : Cause} (h : Sound db a key cause)
    (hg : Grown db db') : Sound db' a key cause := by
  cases cause with
  | minute k => exact h
  | events rowids => exact ⟨h.1, h.2.grow hg⟩

/-- **A task is created** for a cause that was not recorded. -/
theorem Books.fire (h : Books db table fires keys registered none) (ha : a ∈ table)
    (hlast : keys.getLast? = some key) {cause : Cause} (hs : Sound db a key cause)
    (task : String) :
    Books db table (fires ++ [⟨a.automationId, cause, task⟩]) keys registered
      (some (a.automationId, cause)) := by
  have hmem : ∀ f ∈ fires ++ [⟨a.automationId, cause, task⟩],
      f ∈ fires ∨ f = ⟨a.automationId, cause, task⟩ := fun f hf =>
    (mem_append.mp hf).imp_right mem_singleton.mp
  refine { h with
    owned := fun f hf => ?_
    past := fun f hf r hr => ?_
    kind := fun f hf k hk b hb hid => ?_
    minutes := fun id k => ?_
    keyed := fun f hf k hk => ?_
    current := fun f hf k hk hl => ?_
    answered := fun b hb hp r hr => ?_
    made := fun p hp => ?_ }
  · rcases hmem f hf with hf | rfl
    · exact h.owned f hf
    · exact mem_map_of_mem ha
  · rcases hmem f hf with hf | rfl
    · exact h.past f hf r hr
    · cases cause with
      | minute k => cases hr
      | events rowids => exact (hs.2.mem r hr).1.le_length
  · rcases hmem f hf with hf | rfl
    · exact h.kind f hf k hk b hb hid
    · simp only at hk hid
      subst hk
      rw [eq_of_id h.nodup hb ha hid]
      exact hs.2.2
  · rw [countP_concat]
    by_cases hsame : firesAt id k ⟨a.automationId, cause, task⟩ = true
    · obtain ⟨hid, hk⟩ := of_decide_eq_true hsame
      simp only at hid hk
      subst hid hk
      have hzero : fires.countP (firesAt a.automationId k) = 0 := by
        refine countP_eq_zero.mpr (fun f hf hfires => ?_)
        obtain ⟨hfid, hfk⟩ := of_decide_eq_true hfires
        rcases h.current f hf k hfk (hs.1 ▸ hlast) with ⟨b, hb, hbid, hbk⟩ | hpending
        · rw [eq_of_id h.nodup hb ha (hbid.trans hfid)] at hbk
          exact hs.2.1 hbk
        · cases hpending
      rw [hzero, if_pos hsame]
    · rw [if_neg hsame]
      exact h.minutes id k
  · rcases hmem f hf with hf | rfl
    · exact h.keyed f hf k hk
    · simp only at hk
      subst hk
      rw [hs.1]
      exact mem_of_getLast? hlast
  · rcases hmem f hf with hf | rfl
    · rcases h.current f hf k hk hl with hrow | hpending
      · exact .inl hrow
      · cases hpending
    · simp only at hk
      exact .inr (by rw [hk])
  · rw [countP_concat]
    obtain ⟨hle, hconsumed, hopen⟩ := h.answered b hb hp r hr
    by_cases hsame : answers b.automationId r ⟨a.automationId, cause, task⟩ = true
    · obtain ⟨hid, hrow⟩ := of_decide_eq_true hsame
      simp only at hid hrow
      rw [if_pos hsame]
      have hba : b = a := eq_of_id h.nodup hb ha hid.symm
      subst hba
      cases cause with
      | minute k => cases hrow
      | events rowids =>
        have hlt := (hs.2.mem r hrow).2
        have hzero : fires.countP (answers b.automationId r) = 0 := by
          by_contra hne
          obtain ⟨_, hpending, -⟩ := hopen hlt hne
          cases hpending
        rw [hzero]
        exact ⟨Nat.le_refl 1, fun hc => absurd hc (by omega), fun _ _ => ⟨rowids, rfl, hrow⟩⟩
    · rw [if_neg hsame, Nat.add_zero]
      refine ⟨hle, hconsumed, fun hlt hne => ?_⟩
      obtain ⟨_, hpending, -⟩ := hopen hlt hne
      cases hpending
  · refine ⟨⟨a.automationId, cause, task⟩, mem_append_right _ mem_cons_self, ?_⟩
    rw [← Option.some.inj hp]
    exact ⟨rfl, rfl⟩

theorem consumed_boundary (h : Batch db a rowids) :
    ({ a with lastFireKey := (Cause.events rowids).boundary } : Automation).consumed
      = newest rowids := by
  rw [Automation.consumed, Cause.boundary, String.toList_ofList]
  show (Text.parseI64 (Nat.toDigits 10 (newest rowids))).getD (-1) = _
  rw [Text.parseI64_toDigits h.fits]
  rfl

theorem ids_recordFire (table : List Automation) (id boundary : String) :
    ids (recordFire table id boundary) = ids table := by
  rw [ids, recordFire, map_map]
  refine map_congr_left (fun a _ => ?_)
  dsimp only [Function.comp]
  split_ifs
  · rfl
  · rfl

theorem mem_recordFire {boundary : String} (hnodup : (ids table).Nodup)
    (ha : a ∈ table) : b ∈ recordFire table a.automationId boundary ↔
      b = { a with lastFireKey := boundary } ∨ b ∈ table ∧ b.automationId ≠ a.automationId := by
  constructor
  · intro hb
    obtain ⟨c, hc, rfl⟩ := mem_map.mp hb
    split_ifs with hid
    · rw [eq_of_id hnodup hc ha hid]
      exact .inl rfl
    · exact .inr ⟨hc, hid⟩
  · rintro (rfl | ⟨hb, hne⟩)
    · exact mem_map.mpr ⟨a, ha, if_pos rfl⟩
    · exact mem_map.mpr ⟨b, hb, if_neg hne⟩

/-- **The fire is recorded.** -/
theorem Books.record {cause : Cause}
    (h : Books db table fires keys registered (some (a.automationId, cause))) (ha : a ∈ table)
    (hlast : keys.getLast? = some key) (hs : Sound db a key cause) :
    Books db (recordFire table a.automationId cause.boundary) fires keys registered none := by
  have hmem : ∀ b, b ∈ recordFire table a.automationId cause.boundary ↔
      b = { a with lastFireKey := cause.boundary } ∨ b ∈ table ∧ b.automationId ≠ a.automationId :=
    fun b => mem_recordFire h.nodup ha
  refine { h with
    nodup := ids_recordFire table _ _ ▸ h.nodup
    listed := h.listed.trans (ids_recordFire table _ _).symm
    owned := ids_recordFire table _ _ ▸ h.owned
    bounded := fun b hb hp => ?_
    kind := fun f hf k hk b hb hid => ?_
    current := fun f hf k hk hl => ?_
    answered := fun b hb hp r hr => ?_
    made := fun p hp => (by cases hp) }
  · rcases (hmem b).mp hb with rfl | ⟨hb, -⟩
    · cases cause with
      | minute k => exact absurd hs.2.2 hp
      | events rowids =>
        rw [consumed_boundary hs.2]
        exact Int.ofNat_le.mpr (hs.2.mem _ (newest_mem hs.2.nonempty)).1.le_length
    · exact h.bounded b hb hp
  · rcases (hmem b).mp hb with rfl | ⟨hb, -⟩
    · exact h.kind f hf k hk a ha hid
    · exact h.kind f hf k hk b hb hid
  · have hk' : key = k := Option.some.inj (hlast.symm.trans hl)
    refine .inl ?_
    rcases h.current f hf k hk hl with ⟨b, hb, hid, hrow⟩ | hpending
    · by_cases hsame : b.automationId = a.automationId
      · refine ⟨_, (hmem _).mpr (.inl rfl), hsame.symm.trans hid, ?_⟩
        cases cause with
        | minute k' => exact hs.1.trans hk'
        | events rowids => exact absurd (h.kind f hf k hk a ha (hsame.symm.trans hid)) hs.1
      · exact ⟨b, (hmem b).mpr (.inr ⟨hb, hsame⟩), hid, hrow⟩
    · obtain ⟨hid, hcause⟩ := Prod.mk.inj (Option.some.inj hpending)
      refine ⟨_, (hmem _).mpr (.inl rfl), hid, ?_⟩
      rw [hcause]
      rfl
  · rcases (hmem b).mp hb with rfl | ⟨hb, hne⟩
    · cases cause with
      | minute k => exact absurd hs.2.2 hp
      | events rowids =>
        rw [consumed_boundary hs.2]
        obtain ⟨hle, hconsumed, hopen⟩ := h.answered a ha hp r hr
        refine ⟨hle, fun hr' => ?_, fun hlt hne => ?_⟩
        · by_cases hold : (r : Int) ≤ a.consumed
          · exact hconsumed hold
          · -- The row was in the batch, for which there is a fire.
            have hrow : r ∈ rowids := hs.2.complete r hr.1 (by omega) (by omega)
            obtain ⟨f, hf, hid, hcause⟩ := h.made _ rfl
            have hpos : 0 < fires.countP (answers a.automationId r) :=
              countP_pos_iff.mpr ⟨f, hf, decide_eq_true ⟨hid, by rw [hcause]; exact hrow⟩⟩
            show fires.countP (answers a.automationId r) = 1
            omega
        · have hold : a.consumed < (r : Int) := by
            have := (hs.2.mem _ (newest_mem hs.2.nonempty)).2
            omega
          obtain ⟨rowids', hpending, hrow⟩ := hopen hold hne
          obtain ⟨-, hcause⟩ := Prod.mk.inj (Option.some.inj hpending)
          cases hcause
          have := hs.2.le r hrow
          omega
    · obtain ⟨hle, hconsumed, hopen⟩ := h.answered b hb hp r hr
      refine ⟨hle, hconsumed, fun hlt hcount => ?_⟩
      obtain ⟨rowids', hpending, -⟩ := hopen hlt hcount
      exact absurd (Prod.mk.inj (Option.some.inj hpending)).1.symm hne

/-! ### Ticks -/

/-- What a tick has consumed of the automations that it is done with. -/
structure Handled (db : Db) (table : List Automation) (t : Tick) (todo : List String) : Prop where
  seen : t.seen ≤ db.events.length
  known : ∀ b ∈ t.listed, ∃ a ∈ table,
    a.automationId = b.automationId ∧ a.eventPattern = b.eventPattern
  consumed : t.errors = [] → t.unread = false → ∀ b ∈ t.listed, b.enabled = true →
    b.eventPattern ≠ "" → b.automationId ∉ todo → ∀ a ∈ table, a.automationId = b.automationId →
      ∀ r, r ≤ t.seen → IsMatch db b.eventPattern r → (r : Int) ≤ a.consumed

/-- Automations stay, and what they have consumed does. -/
structure Evolves (table table' : List Automation) : Prop where
  stays : ∀ a ∈ table, ∃ a' ∈ table',
    a'.automationId = a.automationId ∧ a'.eventPattern = a.eventPattern
  comes : ∀ a' ∈ table', a'.automationId ∉ ids table ∨ ∃ a ∈ table,
    a.automationId = a'.automationId ∧ (a.eventPattern ≠ "" → a.consumed ≤ a'.consumed)

variable {table' : List Automation} {t : Tick} {todo : List String}

theorem Handled.grow (h : Handled db table t todo) (hg : Grown db db') : Handled db' table t todo := by
  refine ⟨Nat.le_trans h.seen hg.le, h.known, ?_⟩
  intro herr hread b hb hen hp htodo a ha hid r hr hmatch
  exact h.consumed herr hread b hb hen hp htodo a ha hid r hr
    (hg.of_isMatch hmatch (Nat.le_trans hr h.seen))

theorem Handled.evolve (h : Handled db table t todo) (hnodup : (ids table).Nodup)
    (hev : Evolves table table') : Handled db table' t todo := by
  refine ⟨h.seen, fun b hb => ?_, ?_⟩
  · obtain ⟨a, ha, hid, hp⟩ := h.known b hb
    obtain ⟨a', ha', hid', hp'⟩ := hev.stays a ha
    exact ⟨a', ha', hid'.trans hid, hp'.trans hp⟩
  · intro herr hread b hb hen hp htodo a' ha' hid r hr hmatch
    obtain ⟨c, hc, hcid, hcp⟩ := h.known b hb
    rcases hev.comes a' ha' with hnew | ⟨a, ha, haid, hmono⟩
    · exact absurd (mem_map.mpr ⟨c, hc, hcid.trans hid.symm⟩) hnew
    · obtain rfl : a = c := eq_of_id hnodup ha hc (haid.trans (hid.trans hcid.symm))
      have hle := h.consumed herr hread b hb hen hp htodo a ha hcid r hr hmatch
      exact Int.le_trans hle (hmono (hcp ▸ hp))

theorem evolves_enable (id : String) (enabled : Bool) :
    Evolves table (setEnabled table id enabled) := by
  refine ⟨fun a ha => ⟨_, mem_map_of_mem ha, ?_⟩, fun a' ha' => ?_⟩
  · split_ifs
    · exact ⟨rfl, rfl⟩
    · exact ⟨rfl, rfl⟩
  · obtain ⟨a, ha, rfl⟩ := mem_map.mp ha'
    refine .inr ⟨a, ha, ?_⟩
    split_ifs
    · exact ⟨rfl, fun _ => Int.le_refl _⟩
    · exact ⟨rfl, fun _ => Int.le_refl _⟩

theorem evolves_register (hnew : a.automationId ∉ ids table) : Evolves table (table ++ [a]) := by
  refine ⟨fun b hb => ⟨b, mem_append_left _ hb, rfl, rfl⟩, fun b hb => ?_⟩
  rcases mem_append.mp hb with hb | hb
  · exact .inr ⟨b, hb, rfl, fun _ => Int.le_refl _⟩
  · rw [mem_singleton.mp hb]
    exact .inl hnew

theorem evolves_record (hnodup : (ids table).Nodup) (ha : a ∈ table)
    {cause : Cause} (hs : Sound db a key cause) :
    Evolves table (recordFire table a.automationId cause.boundary) := by
  have hmem : ∀ b, b ∈ recordFire table a.automationId cause.boundary ↔
      b = { a with lastFireKey := cause.boundary } ∨ b ∈ table ∧ b.automationId ≠ a.automationId :=
    fun b => mem_recordFire hnodup ha
  refine ⟨fun b hb => ?_, fun b hb => .inr ?_⟩
  · by_cases hid : b.automationId = a.automationId
    · obtain rfl : b = a := eq_of_id hnodup hb ha hid
      exact ⟨_, (hmem _).mpr (.inl rfl), rfl, rfl⟩
    · exact ⟨b, (hmem b).mpr (.inr ⟨hb, hid⟩), rfl, rfl⟩
  · rcases (hmem b).mp hb with rfl | ⟨hb, -⟩
    · refine ⟨a, ha, rfl, fun hp => ?_⟩
      cases cause with
      | minute k => exact absurd hs.2.2 hp
      | events rowids =>
        rw [consumed_boundary hs.2]
        exact Int.le_of_lt (hs.2.mem _ (newest_mem hs.2.nonempty)).2
    · exact ⟨b, hb, rfl, fun _ => Int.le_refl _⟩

def Phase.cause : Phase → Option Cause
  | .scan => none
  | .session cause => some cause
  | .create cause _ => some cause
  | .resolve cause _ => some cause
  | .queue cause _ => some cause
  | .record cause _ => some cause

/-- The batch has all rows that were there when the tick began. -/
def Covers (db : Db) (a : Automation) (seen : Nat) : Cause → Prop
  | .minute _ => True
  | .events rowids => ∀ r, r ≤ seen → IsMatch db a.eventPattern r → a.consumed < (r : Int) →
      r ≤ newest rowids

/-- An answer to `CreateTask` that leads to a task, or to none. -/
def Answers (db : Db) (outcome : Outcome) : Prop :=
  (∃ eventIds, outcome = .applied eventIds) ∧
      (∃ task : TaskId, Tick.aggregateOf db outcome false = some task.toText) ∨
    ∃ reason, outcome = .rejected reason

/-- The automation as the tick has listed it. -/
structure Agrees (a b : Automation) : Prop where
  automationId : a.automationId = b.automationId
  eventPattern : a.eventPattern = b.eventPattern
  lastFireKey : a.lastFireKey = b.lastFireKey

structure Running (db : Db) (table : List Automation) (keys : List String) (t : Tick) : Prop where
  key : keys.getLast? = some (minuteKey t.now)
  suffix : t.rest <:+ t.listed
  nodup : (ids t.listed).Nodup
  snapshot : ∀ b ∈ t.rest, ∃ a ∈ table, Agrees a b
  sound : ∀ b ∈ t.rest.head?, ∀ cause ∈ t.phase.cause,
    Sound db b (minuteKey t.now) cause ∧ Covers db b t.seen cause
  outcome : ∀ cause outcome, t.phase = .resolve cause outcome → Answers db outcome
  handled : Handled db table t (ids t.rest)

theorem Agrees.consumed (h : Agrees a b) : a.consumed = b.consumed := by
  rw [Automation.consumed, Automation.consumed, h.lastFireKey]

theorem Agrees.sound (h : Agrees a b) {cause : Cause}
    (hs : Sound db b key cause) : Sound db a key cause := by
  cases cause with
  | minute k =>
    rw [Sound, h.lastFireKey, h.eventPattern]
    exact hs
  | events rowids =>
    obtain ⟨hp, hbatch⟩ := hs
    refine ⟨h.eventPattern ▸ hp, ⟨hbatch.nonempty, ?_, ?_, hbatch.le, hbatch.fits⟩⟩
    · rw [h.eventPattern, h.consumed]
      exact hbatch.mem
    · rw [h.eventPattern, h.consumed]
      exact hbatch.complete

theorem Answers.grow {outcome : Outcome} (h : Answers db outcome) (hg : Grown db db') :
    Answers db' outcome := by
  refine h.imp_left (fun ⟨happlied, task, htask⟩ => ⟨happlied, task, ?_⟩)
  obtain ⟨new, hnew⟩ := hg
  obtain ⟨id, hid, hfind⟩ := Option.bind_eq_some_iff.mp htask
  obtain ⟨row, hrow, hagg⟩ := Option.map_eq_some_iff.mp hfind
  refine Option.bind_eq_some_iff.mpr ⟨id, hid, Option.map_eq_some_iff.mpr ⟨row, ?_, hagg⟩⟩
  rw [hnew, find?_append, hrow]
  rfl

theorem Running.grow (h : Running db table keys t) (hg : Grown db db') :
    Running db' table keys t := by
  refine { h with
    sound := fun b hb cause hcause => ?_
    outcome := fun cause outcome hphase => (h.outcome cause outcome hphase).grow hg
    handled := h.handled.grow hg }
  obtain ⟨hs, hcov⟩ := h.sound b hb cause hcause
  refine ⟨hs.grow hg, ?_⟩
  cases cause with
  | minute k => exact trivial
  | events rowids =>
    intro r hr hmatch hlt
    exact hcov r hr (hg.of_isMatch hmatch (Nat.le_trans hr h.handled.seen)) hlt

theorem Running.evolve (h : Running db table keys t) (hnodup : (ids table).Nodup)
    (hev : Evolves table table') (hkept : ∀ b ∈ t.rest, ∃ a ∈ table', Agrees a b) :
    Running db table' keys t :=
  { h with
    snapshot := hkept
    handled := h.handled.evolve hnodup hev }

/-- What an automation that a tick leaves behind has consumed. -/
def Finished (db : Db) (table : List Automation) (t' : Tick) (b : Automation) : Prop :=
  t'.errors = [] → t'.unread = false → b.enabled = true → b.eventPattern ≠ "" →
    ∀ a ∈ table, a.automationId = b.automationId → ∀ r, r ≤ t'.seen →
      IsMatch db b.eventPattern r → (r : Int) ≤ a.consumed

structure Leaves (t t' : Tick) (rest : List Automation) : Prop where
  now : t'.now = t.now
  listed : t'.listed = t.listed
  rest : t'.rest = rest
  phase : t'.phase = .scan
  seen : t'.seen = t.seen
  errors : t'.errors = [] → t.errors = []
  unread : t'.unread = false → t.unread = false

variable {rest : List Automation} {t' : Tick}

theorem Running.leaveTo (h : Running db table keys t) (hnodup : (ids table).Nodup)
    (hrest : t.rest = b :: rest) (hl : Leaves t t' rest)
    (hev : Evolves table table') (hkept : ∀ c ∈ rest, ∃ a ∈ table', Agrees a c)
    (hdone : Finished db table' t' b) : Running db table' keys t' := by
  have hsuffix : rest <:+ t.rest := hrest ▸ suffix_cons b rest
  have hh := h.handled.evolve hnodup hev
  refine ⟨hl.now ▸ h.key, ?_, hl.listed ▸ h.nodup, ?_, ?_, ?_, ?_, ?_, ?_⟩
  · rw [hl.rest, hl.listed]
    exact hsuffix.trans h.suffix
  · rw [hl.rest]
    exact hkept
  · rw [hl.phase]
    exact fun _ _ _ hcause => (by cases hcause)
  · rw [hl.phase]
    exact fun _ _ hphase => (by cases hphase)
  · exact hl.seen ▸ hh.seen
  · exact hl.listed ▸ hh.known
  · rw [hl.listed, hl.rest]
    intro herr hread c hc hen hp htodo a ha hid r hr hmatch
    by_cases hsame : c.automationId = b.automationId
    · have hb : b ∈ t.listed := h.suffix.subset (hrest ▸ mem_cons_self)
      obtain rfl : c = b := eq_of_id h.nodup hc hb hsame
      exact hdone herr hread hen hp a ha hid r hr hmatch
    · refine hh.consumed (hl.errors herr) (hl.unread hread) c hc hen hp ?_ a ha hid r
        (hl.seen ▸ hr) hmatch
      rw [hrest, ids, map_cons, mem_cons]
      exact fun hor => hor.elim hsame htodo

theorem Running.leave (h : Running db table keys t) (hnodup : (ids table).Nodup)
    (hrest : t.rest = b :: rest) (hl : Leaves t t' rest)
    (hdone : Finished db table t' b) : Running db table keys t' :=
  h.leaveTo hnodup hrest hl
    ⟨fun a ha => ⟨a, ha, rfl, rfl⟩, fun a ha => .inr ⟨a, ha, rfl, fun _ => Int.le_refl _⟩⟩
    (fun c hc => h.snapshot c (hrest ▸ mem_cons_of_mem b hc)) hdone

theorem leaves_skip (hrest : t.rest = b :: rest) : Leaves t t.skip rest :=
  ⟨rfl, rfl, congrArg List.tail hrest, rfl, rfl, id, id⟩

theorem leaves_fail (hrest : t.rest = b :: rest) (e : FireError) : Leaves t (t.fail b e) rest :=
  ⟨rfl, rfl, congrArg List.tail hrest, rfl, rfl,
    fun herr => absurd herr (append_ne_nil_of_right_ne_nil _ (cons_ne_nil _ _)), id⟩

theorem Running.fail (h : Running db table keys t) (hnodup : (ids table).Nodup)
    (hrest : t.rest = b :: rest) (e : FireError) :
    Running db table keys (t.fail b e) :=
  h.leave hnodup hrest (leaves_fail hrest e)
    (fun herr => absurd herr (append_ne_nil_of_right_ne_nil _ (cons_ne_nil _ _)))

theorem Running.goOn (h : Running db table keys t) (phase : Phase)
    (hcause : phase.cause = t.phase.cause)
    (hout : ∀ cause outcome, phase = .resolve cause outcome → Answers db outcome) :
    Running db table keys { t with phase := phase } :=
  { h with
    sound := fun b hb cause hc => h.sound b hb cause (hcause ▸ hc)
    outcome := hout
    handled := ⟨h.handled.seen, h.handled.known, h.handled.consumed⟩ }

theorem Running.due (h : Running db table keys t) (hhead : t.rest.head? = some b)
    {cause : Cause} (hs : Sound db b (minuteKey t.now) cause) (hcov : Covers db b t.seen cause) :
    Running db table keys (t.due cause) := by
  refine { h with
    sound := fun b' hb' cause' hcause' => ?_
    outcome := fun _ _ hphase => (by cases hphase)
    handled := ⟨h.handled.seen, h.handled.known, h.handled.consumed⟩ }
  obtain rfl : b = b' := Option.some.inj (hhead.symm.trans hb')
  obtain rfl : cause = cause' := Option.some.inj hcause'
  exact ⟨hs, hcov⟩

theorem batch_matchingAfter (hfit : RowidsFit db)
    (hne : matchingAfter db b.eventPattern b.consumed ≠ []) :
    Batch db b (matchingAfter db b.eventPattern b.consumed) := by
  refine ⟨hne, fun r hr => mem_matchingAfter.mp hr,
    fun r hmatch hlt _ => mem_matchingAfter.mpr ⟨hmatch, hlt⟩,
    fun r hr => le_newest matchingAfter_increasing hr, ?_⟩
  exact Nat.lt_of_le_of_lt (mem_matchingAfter.mp (newest_mem hne)).1.le_length hfit

theorem scan_running (h : Running db table keys t) (hnodup : (ids table).Nodup)
    (hrest : t.rest = b :: rest) (hfit : RowidsFit db) (fault : Bool) :
    Running db table keys (t.scan db b fault) ∧ (t.scan db b fault).phase.unrecorded = none := by
  have hhead : t.rest.head? = some b := by rw [hrest]; rfl
  unfold Tick.scan
  split_ifs with hen hpat hfault
  · refine ⟨h.leave hnodup hrest (leaves_skip hrest) (fun _ _ hen' => ?_), rfl⟩
    rw [hen'] at hen
    cases hen
  · cases CronSpec.parse b.cron with
    | none => exact ⟨h.fail hnodup hrest _, rfl⟩
    | some spec =>
      dsimp only
      split_ifs with hskip
      · exact ⟨h.leave hnodup hrest (leaves_skip hrest) (fun _ _ _ hp => absurd hpat hp), rfl⟩
      · exact ⟨h.due hhead ⟨rfl, fun heq => hskip (.inl heq), hpat⟩ trivial, rfl⟩
  · refine ⟨h.leave hnodup hrest ⟨rfl, rfl, congrArg List.tail hrest, rfl, rfl, id, fun hread => ?_⟩
      (fun _ hread => ?_), rfl⟩
    · cases hread
    · cases hread
  · cases hrows : matchingAfter db b.eventPattern b.consumed with
    | nil =>
      -- Nothing of the type is left to consume.
      refine ⟨h.leave hnodup hrest (leaves_skip hrest) (fun _ _ _ _ a ha hid r _ hmatch => ?_), rfl⟩
      obtain ⟨c, hc, hagree⟩ := h.snapshot b (hrest ▸ mem_cons_self)
      obtain rfl : a = c := eq_of_id hnodup ha hc (hid.trans hagree.automationId.symm)
      rw [hagree.consumed]
      by_contra hlt
      have hmem : r ∈ matchingAfter db b.eventPattern b.consumed :=
        mem_matchingAfter.mpr ⟨hmatch, by omega⟩
      rw [hrows] at hmem
      cases hmem
    | cons r rs =>
      have hbatch := batch_matchingAfter (b := b) hfit (hrows ▸ cons_ne_nil r rs)
      rw [hrows] at hbatch
      refine ⟨h.due hhead ⟨hpat, hbatch⟩ (fun x _ hmatch hlt => hbatch.le x ?_), rfl⟩
      exact hrows ▸ mem_matchingAfter.mpr ⟨hmatch, hlt⟩

theorem findSession_running (h : Running db table keys t) (hnodup : (ids table).Nodup)
    (hrest : t.rest = b :: rest) {cause : Cause} (hphase : t.phase = .session cause)
    (fault : Bool) :
    Running db table keys (t.findSession db b cause fault) ∧
      (t.findSession db b cause fault).phase.unrecorded = none := by
  unfold Tick.findSession
  split
  · exact ⟨h.fail hnodup hrest _, rfl⟩
  · split
    · exact ⟨h.fail hnodup hrest _, rfl⟩
    · exact ⟨h.goOn _ (by rw [hphase]; rfl) (fun _ _ hres => (by cases hres)), rfl⟩

/-- What the answer to `CreateTask` is resolved to. -/
theorem resolve_running (h : Running db table keys t) (hnodup : (ids table).Nodup)
    (hrest : t.rest = b :: rest) {cause : Cause} {outcome : Outcome}
    (hphase : t.phase = .resolve cause outcome) {fault : Bool}
    (hclear : ∀ eventIds, outcome = .applied eventIds → fault = false) :
    Running db table keys (t.resolve db b cause outcome fault) ∧
      (t.resolve db b cause outcome fault).phase.unrecorded = t.phase.unrecorded ∧
      ((t.resolve db b cause outcome fault).rest = t.rest ∨ t.phase.unrecorded = none) := by
  rcases h.outcome cause outcome hphase with ⟨⟨eventIds, rfl⟩, task, htask⟩ | ⟨reason, rfl⟩
  · have hfault := hclear eventIds rfl
    subst hfault
    have heq : t.resolve db b cause (.applied eventIds) false = { t with phase := .queue cause task } := by
      rw [Tick.resolve, htask]
      simp only [Id.parse_toText]
    rw [heq, hphase]
    exact ⟨h.goOn _ (by rw [hphase]; rfl) (fun _ _ hres => (by cases hres)), rfl, .inl rfl⟩
  · have heq : t.resolve db b cause (.rejected reason) fault
        = t.fail b (.message "automation fire produced no task") := by
      cases fault
      · rfl
      · rfl
    rw [heq, hphase]
    exact ⟨h.fail hnodup hrest _, rfl, .inr rfl⟩

variable {task : TaskId}

theorem record_running (h : Running db table keys t) (hnodup : (ids table).Nodup)
    {b c : Automation} (hrest : t.rest = b :: rest) {cause : Cause}
    (hphase : t.phase = .record cause task) (hl : Leaves t t' rest) (hc : c ∈ table)
    (hagree : Agrees c b) :
    Running db (recordFire table c.automationId cause.boundary) keys t' := by
  have hhead : t.rest.head? = some b := by rw [hrest]; rfl
  obtain ⟨hs, hcov⟩ := h.sound b hhead cause (by rw [hphase]; rfl)
  have hsc := hagree.sound hs
  have hmem : ∀ x, x ∈ recordFire table c.automationId cause.boundary ↔
      x = { c with lastFireKey := cause.boundary } ∨ x ∈ table ∧ x.automationId ≠ c.automationId :=
    fun x => mem_recordFire hnodup hc
  have hnd : (ids (b :: rest)).Nodup := by
    rw [← hrest]
    exact h.nodup.sublist (h.suffix.sublist.map _)
  refine h.leaveTo hnodup hrest hl (evolves_record hnodup hc hsc) (fun x hx => ?_) ?_
  · obtain ⟨a, ha, hax⟩ := h.snapshot x (hrest ▸ mem_cons_of_mem b hx)
    refine ⟨a, (hmem a).mpr (.inr ⟨ha, fun hid => ?_⟩), hax⟩
    have hxb : x.automationId = b.automationId :=
      hax.automationId.symm.trans (hid.trans hagree.automationId)
    exact (nodup_cons.mp hnd).1 (hxb ▸ mem_map_of_mem hx)
  · -- The rows that were there when the tick began are in the batch, or were consumed before.
    intro _ _ _ hp a ha hid r hr hmatch
    cases cause with
    | minute k => exact absurd hs.2.2 hp
    | events rowids =>
      rcases (hmem a).mp ha with rfl | ⟨-, hne⟩
      · rw [consumed_boundary hsc.2]
        by_cases hold : (r : Int) ≤ b.consumed
        · have hlt := (hs.2.mem _ (newest_mem hs.2.nonempty)).2
          omega
        · have hle := hcov r (hl.seen ▸ hr) hmatch (by omega)
          omega
      · exact absurd (hid.trans hagree.automationId.symm) hne

/-! ### Every step -/

/-- The task that was created and is not yet recorded. -/
def pendingOf (tick : Option Tick) : Option (String × Cause) :=
  tick.bind (fun t => t.rest.head?.bind (fun b => t.phase.unrecorded.map (fun c => (b.automationId, c))))

structure Good (e : Engine) : Prop where
  reached : ∃ ops, e.db = Db.after ops
  books : Books e.db e.automations e.fires e.keys e.registered (pendingOf e.tick)
  running : ∀ t ∈ e.tick, Running e.db e.automations e.keys t
  ended : ∀ t ∈ e.ended, Handled e.db e.automations t []

variable {e : Engine} {turn : Turn} {a b : Automation} {rest : List Automation} {cause : Cause}

theorem pendingOf_none (h : t.phase.unrecorded = none) : pendingOf (some t) = none := by
  rw [pendingOf, Option.bind_some, h]
  cases t.rest.head? <;> rfl

theorem pendingOf_some (hrest : t.rest = b :: rest) (h : t.phase.unrecorded = some cause) :
    pendingOf (some t) = some (b.automationId, cause) := by
  rw [pendingOf, Option.bind_some, h, hrest]
  rfl

theorem grown_step {db : Db} (hg : GaplessLog db.events) (op : Op) :
    Grown db (Modbit.step db op).1 := ⟨_, (step_extended hg op).events⟩

theorem Good.gapless (h : Good e) : GaplessLog e.db.events := by
  obtain ⟨ops, hdb⟩ := h.reached
  exact hdb ▸ after_gapless ops

theorem Good.reached_step (h : Good e) (op : Op) : ∃ ops, (Modbit.step e.db op).1 = Db.after ops := by
  obtain ⟨ops, hdb⟩ := h.reached
  exact ⟨ops ++ [op], by rw [after_concat, hdb]⟩

theorem Good.op (h : Good e) (op : Op) : Good { e with db := (Modbit.step e.db op).1 } := by
  have hg := grown_step h.gapless op
  exact ⟨h.reached_step op, h.books.grow hg, fun t ht => (h.running t ht).grow hg,
    fun t ht => (h.ended t ht).grow hg⟩

theorem Good.enable (h : Good e) (id : String) (enabled : Bool) :
    Good { e with automations := setEnabled e.automations id enabled } := by
  have hev : Evolves e.automations (setEnabled e.automations id enabled) := evolves_enable id enabled
  refine ⟨h.reached, h.books.enable id enabled, fun t ht => ?_,
    fun t ht => (h.ended t ht).evolve h.books.nodup hev⟩
  refine (h.running t ht).evolve h.books.nodup hev (fun b hb => ?_)
  obtain ⟨a, ha, hagree⟩ := (h.running t ht).snapshot b hb
  refine ⟨_, mem_map_of_mem ha, ?_⟩
  split_ifs
  · exact ⟨hagree.automationId, hagree.eventPattern, hagree.lastFireKey⟩
  · exact hagree

theorem create_ok {drawn : String} (hc : create table a drawn = .ok table') :
    ∃ a', table' = table ++ [a'] ∧ a'.automationId ∉ ids table ∧ a'.eventPattern = a.eventPattern ∧
      a'.consumed = a.consumed := by
  rw [create] at hc
  split_ifs at hc
  all_goals cases hc
  all_goals exact ⟨_, rfl, by assumption, rfl, rfl⟩

theorem Good.register (h : Good e) {drawn : String}
    (hclear : a.eventPattern ≠ "" → a.consumed ≤ e.db.events.length)
    (hc : create e.automations a drawn = .ok table') :
    Good { e with
      automations := table'
      registered := e.registered ++ (table'.drop e.automations.length).map
        (fun a => (a.automationId, e.db.events.length)) } := by
  obtain ⟨a', rfl, hnew, hpat, hcon⟩ := create_ok hc
  have hev : Evolves e.automations (e.automations ++ [a']) := evolves_register hnew
  refine ⟨h.reached, ?_, fun t ht => ?_, fun t ht => (h.ended t ht).evolve h.books.nodup hev⟩
  · rw [drop_left]
    exact h.books.register hnew (fun hp => hcon ▸ hclear (hpat ▸ hp))
  · refine (h.running t ht).evolve h.books.nodup hev (fun b hb => ?_)
    obtain ⟨c, hc, hagree⟩ := (h.running t ht).snapshot b hb
    exact ⟨c, mem_append_left _ hc, hagree⟩

theorem Good.begin (h : Good e) (htick : e.tick = none) {now : Nat}
    (hclear : minuteKey now ∉ e.keys ∨ e.keys.getLast? = some (minuteKey now)) (fault : Bool) :
    Good (step e (.tick now fault)).1 := by
  rw [step, htick]
  have hbooks : Books e.db e.automations e.fires e.keys e.registered none := by
    have hb := h.books
    rw [htick] at hb
    exact hb
  have hsub : ∀ b ∈ (if fault = true then [] else e.automations), b ∈ e.automations := by
    intro b hb
    split_ifs at hb
    · cases hb
    · exact hb
  refine ⟨h.reached, ?_, fun t ht => ?_, h.ended⟩
  · rw [pendingOf_none rfl]
    exact hbooks.begin hclear
  · rw [← Option.some.inj ht]
    refine ⟨by simp, suffix_refl _, ?_, fun b hb => ⟨b, hsub b hb, rfl, rfl, rfl⟩,
      fun _ _ _ hcause => (by cases hcause), fun _ _ hphase => (by cases hphase),
      ⟨Nat.le_refl _, fun b hb => ⟨b, hsub b hb, rfl, rfl⟩, ?_⟩⟩
    · split_ifs
      · exact nodup_nil
      · exact h.books.nodup
    · exact fun _ _ b hb _ _ htodo => absurd (mem_map_of_mem hb) htodo

theorem Good.stop (h : Good e) (hclear : ∀ t ∈ e.tick, t.phase.unrecorded = none) :
    Good { e with tick := none } := by
  have hnone : pendingOf e.tick = none := by
    cases htick : e.tick with
    | none => rfl
    | some t => exact pendingOf_none (hclear t htick)
  refine ⟨h.reached, ?_, fun t ht => (by cases ht), h.ended⟩
  have hb := h.books
  rw [hnone] at hb
  exact hb

theorem Good.move (h : Good e) (hr : Running e.db e.automations e.keys t')
    (hp : pendingOf (some t') = pendingOf e.tick) : Good { e with tick := some t' } := by
  refine ⟨h.reached, ?_, fun u hu => ?_, h.ended⟩
  · rw [hp]
    exact h.books
  · rw [← Option.some.inj hu]
    exact hr

theorem Good.nothing_pending (h : Good e) (htick : e.tick = some t)
    (hnone : t.phase.unrecorded = none) :
    Books e.db e.automations e.fires e.keys e.registered none := by
  have hb := h.books
  rw [htick, pendingOf_none hnone] at hb
  exact hb

theorem Good.fail (h : Good e) (htick : e.tick = some t) (hrest : t.rest = b :: rest)
    (hnone : t.phase.unrecorded = none) (x : FireError) :
    Good { e with tick := some (t.fail b x) } := by
  refine h.move ((h.running t htick).fail h.books.nodup hrest x) ?_
  rw [htick, pendingOf_none hnone, pendingOf_none rfl]

theorem grown_execute (hg : GaplessLog db.events) (command : Command) (o : Oracle) :
    Grown db (execute db command o).1 := ⟨_, (execute_extended hg).events⟩

/-- What a call that creates a task answers: a task was added, or it was rejected. -/
def CreateAnswer (db : Db) (r : Db × Except StoreError Outcome) : Prop :=
  (∃ row eventIds, Engine.added db r.1 = [row] ∧ r.2 = .ok (.applied eventIds) ∧
      Answers r.1 (.applied eventIds)) ∨
    Engine.added db r.1 = [] ∧ ∃ reason, r.2 = .ok (.rejected reason)

theorem createAnswer (h : Good e) (b : Automation) (sessionId : SessionId)
    (hunused : Unused e.db turn) :
    CreateAnswer e.db (execute e.db (Engine.createCommand b sessionId turn) turn.oracle) := by
  have hu : Unseen e.db (Engine.createCommand b sessionId turn) := hunused.2
  have hk : KeysLogged e.db.events e.db.projections := by
    obtain ⟨ops, hdb⟩ := h.reached
    exact hdb ▸ after_keysLogged ops
  by_cases htakes : 0 < countEvents e.db sessionId.toText ∧
      sessionId.toText ∈ e.db.projections.sessionIds
  · obtain ⟨x, hid, hagg, hexec, -, row, htasks, -, -⟩ :=
      execute_createTask h.gapless hk hunused.1 hu rfl htakes.1 htakes.2
    refine .inl ⟨row, [x.eventId], ?_, ?_, .inl ⟨⟨_, rfl⟩, ⟨turn.oracle.aggregate⟩, ?_⟩⟩
    · rw [Engine.added, htasks, drop_left]
    · rw [hexec]
    · rw [hexec]
      show (((e.db.commit [x]).withLog _).events.find? (fun r => r.eventId = x.eventId)).map
        EventRow.aggregateId = _
      rw [find?_commit hunused.1 hid]
      exact congrArg some hagg
  · obtain ⟨hsame, reason, hrejected⟩ := createTask_refused (o := turn.oracle) hu rfl htakes
    refine .inr ⟨?_, reason, hrejected⟩
    rw [Engine.added, hsame, drop_length]

theorem Good.create (h : Good e) (htick : e.tick = some t) (hrest : t.rest = b :: rest)
    {sessionId : SessionId} (hphase : t.phase = .create cause sessionId)
    (hunused : Unused e.db turn) :
    Good (e.created t b cause (execute e.db (Engine.createCommand b sessionId turn) turn.oracle)) := by
  have hnone : t.phase.unrecorded = none := by rw [hphase]; rfl
  have hbooks := h.nothing_pending htick hnone
  have hrun := h.running t htick
  have hg := grown_execute h.gapless (Engine.createCommand b sessionId turn) turn.oracle
  have hanswer := createAnswer h b sessionId hunused
  have hreached := h.reached_step (.execute (Engine.createCommand b sessionId turn) turn.oracle)
  have hdb : (Modbit.step e.db (.execute (Engine.createCommand b sessionId turn) turn.oracle)).1
      = (execute e.db (Engine.createCommand b sessionId turn) turn.oracle).1 := rfl
  rw [hdb] at hreached
  generalize execute e.db (Engine.createCommand b sessionId turn) turn.oracle = r at hg hanswer hreached
  obtain ⟨db', answer⟩ := r
  obtain ⟨c, hc, hagree⟩ := hrun.snapshot b (hrest ▸ mem_cons_self)
  obtain ⟨hs, -⟩ := hrun.sound b (by rw [hrest]; rfl) cause (by rw [hphase]; rfl)
  have hended : ∀ u ∈ e.ended, Handled db' e.automations u [] := fun u hu => (h.ended u hu).grow hg
  rcases hanswer with ⟨row, eventIds, hadded, heq, hans⟩ | ⟨hadded, reason, heq⟩
  · simp only at hadded heq hans
    subst heq
    rw [Engine.created]
    rw [hadded]
    refine ⟨hreached, ?_, fun u hu => ?_, hended⟩
    · rw [pendingOf_some (t := { t with phase := .resolve cause (.applied eventIds) }) hrest rfl,
        map_singleton, ← hagree.automationId]
      exact (hbooks.grow hg).fire hc hrun.key ((hagree.sound hs).grow hg) row.taskId
    · rw [← Option.some.inj hu]
      refine (hrun.grow hg).goOn _ (by rw [hphase]; rfl) (fun cause' outcome hres => ?_)
      cases hres
      exact hans
  · simp only at hadded heq
    subst heq
    rw [Engine.created]
    rw [hadded]
    refine ⟨hreached, ?_, fun u hu => ?_, hended⟩
    · rw [pendingOf_none rfl, map_nil, append_nil]
      exact hbooks.grow hg
    · rw [← Option.some.inj hu]
      refine (hrun.grow hg).goOn _ (by rw [hphase]; rfl) (fun cause' outcome hres => ?_)
      cases hres
      exact .inr ⟨reason, rfl⟩

theorem execute_isOk (db : Db) (command : Command) (o : Oracle) :
    ∃ outcome, (execute db command o).2 = .ok outcome := by
  have hres := execute_result db command o
  generalize execute db command o = r at hres
  cases hres with
  | seen _ => exact ⟨_, rfl⟩
  | refused _ _ => exact ⟨_, rfl⟩
  | applied _ _ _ => exact ⟨_, rfl⟩
  | stopped _ _ _ _ => exact ⟨_, rfl⟩

theorem Good.queue (h : Good e) (htick : e.tick = some t) (hrest : t.rest = b :: rest)
    (hphase : t.phase = .queue cause task) :
    Good (e.queued t b cause task (execute e.db (Engine.queueCommand b task turn) turn.oracle)) := by
  have hop := h.op (.execute (Engine.queueCommand b task turn) turn.oracle)
  obtain ⟨outcome, hok⟩ := execute_isOk e.db (Engine.queueCommand b task turn) turn.oracle
  rw [Engine.queued, hok]
  have hgo := (hop.running t htick).goOn (.record cause task) (by rw [hphase]; rfl)
    (fun _ _ hres => (by cases hres))
  refine hop.move hgo ?_
  rw [htick, pendingOf_some (t := { t with phase := .record cause task }) hrest rfl,
    pendingOf_some hrest (by rw [hphase]; rfl)]

theorem Good.record (h : Good e) (htick : e.tick = some t) (hrest : t.rest = b :: rest)
    (hphase : t.phase = .record cause task) :
    Good (e.recorded t b cause task false) := by
  have hrun := h.running t htick
  obtain ⟨c, hc, hagree⟩ := hrun.snapshot b (hrest ▸ mem_cons_self)
  obtain ⟨hs, -⟩ := hrun.sound b (by rw [hrest]; rfl) cause (by rw [hphase]; rfl)
  have hsc := hagree.sound hs
  have hbooks : Books e.db e.automations e.fires e.keys e.registered
      (some (c.automationId, cause)) := by
    have hb := h.books
    rw [htick, pendingOf_some hrest (by rw [hphase]; rfl), ← hagree.automationId] at hb
    exact hb
  have hl : Leaves t { t.skip with fired := t.fired ++ [(b.automationId, task.toText)] } rest :=
    ⟨rfl, rfl, congrArg List.tail hrest, rfl, rfl, id, id⟩
  rw [Engine.recorded, if_neg Bool.false_ne_true, ← hagree.automationId]
  refine ⟨h.reached, ?_, fun u hu => ?_, fun u hu => ?_⟩
  · rw [pendingOf_none rfl]
    exact hbooks.record hc hrun.key hsc
  · rw [← Option.some.inj hu]
    rw [← hagree.automationId] at hl
    exact record_running hrun h.books.nodup hrest hphase hl hc hagree
  · exact (h.ended u hu).evolve h.books.nodup (evolves_record h.books.nodup hc hsc)

/-- **One operation of a tick.** -/
theorem Good.advance (h : Good e) (htick : e.tick = some t) (hclear : ClearPhase e.db turn t.phase) :
    Good (e.advance t turn) := by
  have hrun := h.running t htick
  rw [Engine.advance]
  cases hrest : t.rest with
  | nil =>
    have hnone : pendingOf e.tick = none := by
      rw [htick, pendingOf, Option.bind_some, hrest]
      rfl
    refine ⟨h.reached, ?_, fun u hu => (by cases hu), fun u hu => ?_⟩
    · have hb := h.books
      rw [hnone] at hb
      exact hb
    · rcases mem_append.mp hu with hu | hu
      · exact h.ended u hu
      · rw [mem_singleton.mp hu]
        have hh := hrun.handled
        rw [hrest] at hh
        exact hh
  | cons b rest =>
    cases hphase : t.phase with
    | scan =>
      rw [hphase] at hclear
      obtain ⟨hr, hun⟩ := scan_running hrun h.books.nodup hrest hclear turn.fault
      refine h.move hr ?_
      rw [htick, pendingOf_none hun, pendingOf_none (by rw [hphase]; rfl)]
    | session cause =>
      obtain ⟨hr, hun⟩ := findSession_running hrun h.books.nodup hrest hphase turn.fault
      refine h.move hr ?_
      rw [htick, pendingOf_none hun, pendingOf_none (by rw [hphase]; rfl)]
    | create cause sessionId =>
      rw [hphase] at hclear
      split_ifs
      · exact h.fail htick hrest (by rw [hphase]; rfl) .fault
      · exact h.create htick hrest hphase hclear
    | resolve cause outcome =>
      rw [hphase] at hclear
      have hfault : ∀ eventIds, outcome = .applied eventIds → turn.fault = false := by
        rintro eventIds rfl
        exact hclear
      obtain ⟨hr, hun, hsame | hnone⟩ := resolve_running hrun h.books.nodup hrest hphase hfault
      · refine h.move hr ?_
        rw [htick, pendingOf, pendingOf, Option.bind_some, Option.bind_some, hun, hsame]
      · refine h.move hr ?_
        rw [htick, pendingOf_none (hun.trans hnone), pendingOf_none hnone]
    | queue cause task =>
      rw [hphase] at hclear
      dsimp only
      rw [hclear.1, if_neg Bool.false_ne_true]
      exact h.queue htick hrest hphase
    | record cause task =>
      rw [hphase] at hclear
      have hfault : turn.fault = false := hclear
      rw [hfault]
      exact h.record htick hrest hphase

theorem good_step (h : Good e) (ev : Event) (hclear : Clear e ev) : Good (step e ev).1 := by
  cases ev with
  | tick now fault =>
    cases htick : e.tick with
    | none => exact h.begin htick (hclear htick) fault
    | some t =>
      rw [step, htick]
      exact h
  | advance turn =>
    cases htick : e.tick with
    | none =>
      rw [step, htick]
      exact h
    | some t =>
      rw [step, htick]
      exact h.advance htick (hclear t htick)
  | stop => exact h.stop hclear
  | register a drawn =>
    cases hc : create e.automations a drawn with
    | error x =>
      rw [step, hc]
      exact h
    | ok table' =>
      rw [step, hc]
      exact h.register hclear hc
  | setEnabled id enabled => exact h.enable id enabled
  | op op => exact h.op op

theorem good_start : Good start := by
  refine ⟨⟨[], rfl⟩, ?_, fun t ht => (by cases ht), fun t ht => (by cases ht)⟩
  exact ⟨nodup_nil, rfl, fun f hf => (by cases hf), fun f hf => (by cases hf),
    fun a ha => (by cases ha), fun f hf => (by cases hf), fun _ _ => Nat.zero_le 1,
    fun f hf => (by cases hf), fun f hf => (by cases hf), fun a ha => (by cases ha),
    fun p hp => (by cases hp)⟩

theorem Good.once (h : Good e) : Once e := by
  refine ⟨h.books.minutes, fun a ha hp r hr => ?_, fun t ht herr hread b hb hen hp r hr hfollows => ?_⟩
  · obtain ⟨hle, hconsumed, -⟩ := h.books.answered a ha hp r hr
    exact ⟨hle, hconsumed⟩
  · obtain ⟨a, ha, hid, hpat⟩ := (h.ended t ht).known b hb
    have hconsumed := (h.ended t ht).consumed herr hread b hb hen hp not_mem_nil a ha hid r hr
      hfollows.1
    have hlater : Later e.db e.registered a r := by
      rw [Later, hid, hpat]
      exact hfollows
    rw [← hid]
    exact (h.books.answered a ha (hpat ▸ hp) r hlater).2.1 hconsumed

/-! ### One event at a time -/

/-- The fires, and what a tick is about to fire for, have one row each. -/
structure OneByOne (e : Engine) : Prop where
  fires : Alone e
  cause : ∀ t ∈ e.tick, ∀ rowids, t.phase.cause = some (.events rowids) → rowids.length = 1

theorem scan_cause (t : Tick) (db : Db) (a : Automation) (fault : Bool)
    (h : (t.scan db a fault).phase.cause = some (.events rowids)) :
    rowids = matchingAfter db a.eventPattern a.consumed ∧ rowids ≠ [] := by
  unfold Tick.scan at h
  split_ifs at h
  · cases h
  · cases hspec : CronSpec.parse a.cron with
    | none =>
      rw [hspec] at h
      cases h
    | some spec =>
      rw [hspec] at h
      dsimp only at h
      split_ifs at h
      · cases h
      · cases h
  · cases h
  · cases hrows : matchingAfter db a.eventPattern a.consumed with
    | nil =>
      rw [hrows] at h
      cases h
    | cons r rs =>
      rw [hrows] at h
      cases h
      exact ⟨rfl, cons_ne_nil r rs⟩

theorem findSession_cause (t : Tick) (db : Db) (a : Automation) (cause : Cause) (fault : Bool) :
    (t.findSession db a cause fault).phase.cause = none ∨
      (t.findSession db a cause fault).phase.cause = some cause := by
  unfold Tick.findSession
  split
  · exact .inl rfl
  · split
    · exact .inl rfl
    · exact .inr rfl

theorem resolve_cause (t : Tick) (db : Db) (a : Automation) (cause : Cause) (outcome : Outcome)
    (fault : Bool) :
    (t.resolve db a cause outcome fault).phase.cause = none ∨
      (t.resolve db a cause outcome fault).phase.cause = some cause := by
  unfold Tick.resolve
  split
  · exact .inl rfl
  · split
    · exact .inl rfl
    · exact .inr rfl

theorem OneByOne.advance (h : OneByOne e) (htick : e.tick = some t)
    (hsingle : t.phase = .scan → ∀ a ∈ t.rest.head?,
      (matchingAfter e.db a.eventPattern a.consumed).length ≤ 1) : OneByOne (e.advance t turn) := by
  have hcause := h.cause t htick
  rw [Engine.advance]
  cases hrest : t.rest with
  | nil => exact ⟨h.fires, fun u hu => (by cases hu)⟩
  | cons b rest =>
    have hkeep : ∀ (t' : Tick) (cause : Cause), t.phase.cause = some cause →
        t'.phase.cause = none ∨ t'.phase.cause = some cause →
          ∀ rowids, t'.phase.cause = some (.events rowids) → rowids.length = 1 := by
      rintro t' cause hc (hnone | hsome) rowids hrows
      · rw [hnone] at hrows
        cases hrows
      · exact hcause rowids (hc.trans (hsome.symm.trans hrows))
    have hmove : ∀ t', (∀ rowids, t'.phase.cause = some (.events rowids) → rowids.length = 1) →
        OneByOne { e with tick := some t' } := by
      intro t' ht'
      refine ⟨h.fires, fun u hu => ?_⟩
      rw [← Option.some.inj hu]
      exact ht'
    cases hphase : t.phase with
    | scan =>
      refine hmove _ (fun rowids hrows => ?_)
      obtain ⟨rfl, hne⟩ := scan_cause t e.db b turn.fault hrows
      have hle := hsingle hphase b (by rw [hrest]; rfl)
      exact Nat.le_antisymm hle (length_pos_iff.mpr hne)
    | session cause =>
      exact hmove _ (hkeep _ cause (by rw [hphase]; rfl) (findSession_cause _ _ _ _ _))
    | resolve cause outcome =>
      exact hmove _ (hkeep _ cause (by rw [hphase]; rfl) (resolve_cause _ _ _ _ _ _))
    | create cause sessionId =>
      dsimp only
      split_ifs
      · exact hmove _ (fun rowids hrows => (by cases hrows))
      · generalize execute e.db (Engine.createCommand b sessionId turn) turn.oracle = r
        obtain ⟨db', answer⟩ := r
        refine ⟨fun f hf rowids hrows => ?_, fun u hu => ?_⟩
        · rcases mem_append.mp hf with hf | hf
          · exact h.fires f hf rowids hrows
          · obtain ⟨row, -, rfl⟩ := mem_map.mp hf
            exact hcause rowids (by rw [hphase]; exact congrArg some hrows)
        · rw [← Option.some.inj hu]
          cases answer with
          | error x => exact fun rowids hrows => (by cases hrows)
          | ok outcome => exact hkeep _ cause (by rw [hphase]; rfl) (.inr rfl)
    | queue cause task =>
      dsimp only
      split_ifs
      · exact hmove _ (fun rowids hrows => (by cases hrows))
      · generalize execute e.db (Engine.queueCommand b task turn) turn.oracle = r
        obtain ⟨db', answer⟩ := r
        refine ⟨h.fires, fun u hu => ?_⟩
        rw [← Option.some.inj hu]
        cases answer with
        | error x => exact fun rowids hrows => (by cases hrows)
        | ok outcome => exact hkeep _ cause (by rw [hphase]; rfl) (.inr rfl)
    | record cause task =>
      refine ⟨h.fires, fun u hu => ?_⟩
      rw [← Option.some.inj hu]
      exact fun rowids hrows => (by cases hrows)

theorem oneByOne_step (h : OneByOne e) (ev : Event) (hsingle : Single e ev) :
    OneByOne (step e ev).1 := by
  cases ev with
  | tick now fault =>
    rw [step]
    cases htick : e.tick with
    | none =>
      refine ⟨h.fires, fun t ht rowids hrows => ?_⟩
      rw [← Option.some.inj ht] at hrows
      cases hrows
    | some t => exact h
  | advance turn =>
    rw [step]
    cases htick : e.tick with
    | none => exact h
    | some t => exact h.advance htick (hsingle t htick)
  | stop => exact ⟨h.fires, fun t ht => (by cases ht)⟩
  | register a drawn =>
    rw [step]
    cases create e.automations a drawn with
    | error x => exact h
    | ok table' => exact ⟨h.fires, h.cause⟩
  | setEnabled id enabled => exact ⟨h.fires, h.cause⟩
  | op op => exact ⟨h.fires, h.cause⟩

/-- **Every run of clear steps fires once**, and event by event if they come one at a time. -/
theorem once_run (evs : List Event) (h : Admits step Clear start evs) :
    Once (run step start evs) ∧ (Admits step Single start evs → Alone (run step start evs)) := by
  have hgood : Good (run step start evs) :=
    (path_of_admits evs h).invariant good_start (fun _ ev he hclear => good_step he ev hclear)
  refine ⟨hgood.once, fun hsingle => ?_⟩
  have hstart : OneByOne start := ⟨fun f hf => (by cases hf), fun t ht => (by cases ht)⟩
  have hone : OneByOne (run step start evs) :=
    (path_of_admits evs hsingle).invariant hstart (fun _ ev he hs => oneByOne_step he ev hs)
  exact hone.fires

/-! ### An event that is answered, and fires that are not once -/

/-- An operation of a tick, evaluated without computing a hash. -/
def evalAdvance (e : Engine) (t : Tick) (turn : Turn) : Engine :=
  match t.rest, t.phase with
  | b :: _, .create cause sessionId =>
    if turn.fault then e.advance t turn
    else e.created t b cause (evalCall e.db (Engine.createCommand b sessionId turn, turn.oracle))
  | b :: _, .queue cause task =>
    if turn.fault then e.advance t turn
    else e.queued t b cause task (evalCall e.db (Engine.queueCommand b task turn, turn.oracle))
  | _, _ => e.advance t turn

def evalStep (e : Engine) : Event → Engine × Unit
  | .advance turn =>
    match e.tick with
    | none => (e, ())
    | some t => (evalAdvance e t turn, ())
  | .op op => ({ e with db := (Modbit.evalStep e.db op).1 }, ())
  | ev => step e ev

theorem advance_eq (e : Engine) (t : Tick) (turn : Turn) : e.advance t turn = evalAdvance e t turn := by
  unfold evalAdvance
  split
  · next b rest cause sessionId hrest hphase =>
    split_ifs with hfault
    · rfl
    · rw [Engine.advance, hrest, hphase]
      simp only [if_neg hfault, execute_eq_evalCall]
  · next b rest cause task hrest hphase =>
    split_ifs with hfault
    · rfl
    · rw [Engine.advance, hrest, hphase]
      simp only [if_neg hfault, execute_eq_evalCall]
  · rfl

theorem step_eq_evalStep : step = evalStep := by
  funext e ev
  cases ev with
  | advance turn =>
    rw [step, evalStep]
    cases e.tick with
    | none => rfl
    | some t =>
      dsimp only
      rw [advance_eq]
  | op op => rw [step, evalStep, step_eq]
  | _ => rfl

instance {db : Db} {turn : Turn} : Decidable (Unused db turn) :=
  inferInstanceAs (Decidable (_ ∧ _))

instance {db : Db} {turn : Turn} : ∀ {phase : Phase}, Decidable (ClearPhase db turn phase)
  | .scan => inferInstanceAs (Decidable (RowidsFit db))
  | .create _ _ => inferInstanceAs (Decidable (Unused db turn))
  | .resolve _ (.applied _) => inferInstanceAs (Decidable (turn.fault = false))
  | .queue _ _ => inferInstanceAs (Decidable (_ ∧ _))
  | .record _ _ => inferInstanceAs (Decidable (turn.fault = false))
  | .session _ | .resolve _ (.replayed _) | .resolve _ (.rejected _) => .isTrue trivial

instance {e : Engine} : ∀ {ev : Event}, Decidable (Clear e ev)
  | .tick _ _ => inferInstanceAs (Decidable (_ → _ ∨ _))
  | .advance _ => inferInstanceAs (Decidable (∀ t ∈ e.tick, _))
  | .stop => inferInstanceAs (Decidable (∀ t ∈ e.tick, _))
  | .register _ _ => inferInstanceAs (Decidable (_ → _))
  | .setEnabled _ _ | .op _ => .isTrue trivial

instance {e : Engine} : ∀ {ev : Event}, Decidable (Single e ev)
  | .advance _ => inferInstanceAs (Decidable (∀ t ∈ e.tick, _ → ∀ a ∈ t.rest.head?, _))
  | .tick _ _ | .stop | .register _ _ | .setEnabled _ _ | .op _ => .isTrue trivial

def sampleTurn (n : Nat) : Turn := ⟨toString n, sampleOracle n, false⟩

/-- The operations of a tick, from the `n`-th draw on. -/
def operations (n k : Nat) : List Event := (List.range k).map (fun i => .advance (sampleTurn (n + i)))

def everyMinute : Automation := ⟨"sweep", "sweep", "* * * * *", "", "sweep", true, ""⟩

def onCreation : Automation := ⟨"review", "review", "", "task_created", "review", true, ""⟩

def commands (payloads : List CommandPayload) : List Event :=
  (sampleCalls payloads).map (fun call => .op (.execute call.1 call.2))

/-- A task is created after the automation was registered, and a tick runs to its end. -/
def oneEvent : List Event :=
  .register onCreation "" ::
    commands [.createSession "s", .createTask ⟨.ofNat 0⟩ "title" "prompt" none none none]
    ++ .tick 600 false :: operations 10 7

/-- A tick stops after it has created its task, and another one comes in the same minute. -/
def stopped : List Event :=
  .register everyMinute "" :: commands [.createSession "s"]
    ++ .tick 600 false :: operations 10 3 ++ .stop :: .tick 630 false :: operations 20 3

def clockBack : List Event :=
  .register everyMinute "" :: commands [.createSession "s"]
    ++ .tick 600 false :: operations 10 7 ++ .tick 660 false :: operations 20 7
    ++ .tick 600 false :: operations 30 7

def twoEvents : List Event :=
  .register onCreation "" ::
    commands [.createSession "s", .createTask ⟨.ofNat 0⟩ "one" "prompt" none none none,
      .createTask ⟨.ofNat 0⟩ "two" "prompt" none none none]
    ++ .tick 600 false :: operations 10 7

theorem once_run_oneEvent :
    (run step start oneEvent).fires.map Fire.cause = [.events [2]] ∧
      Once (run step start oneEvent) ∧ Alone (run step start oneEvent) := by
  have hfacts : (run evalStep start oneEvent).fires.map Fire.cause = [.events [2]] ∧
      Admits evalStep Clear start oneEvent ∧ Admits evalStep Single start oneEvent := by
    decide +kernel
  rw [← step_eq_evalStep] at hfacts
  obtain ⟨hfires, hclear, hsingle⟩ := hfacts
  obtain ⟨honce, halone⟩ := once_run oneEvent hclear
  exact ⟨hfires, honce, halone hsingle⟩

/-- **A minute that has two tasks**, after a stop and after a clock that goes back, **and two events
that share one.** -/
theorem not_once :
    ¬ Once (run step start stopped) ∧ ¬ Once (run step start clockBack) ∧
      ¬ Alone (run step start twoEvents) := by
  have hfacts : 1 < (run evalStep start stopped).fires.countP (firesAt "sweep" (minuteKey 600)) ∧
      1 < (run evalStep start clockBack).fires.countP (firesAt "sweep" (minuteKey 600)) ∧
      ∃ f ∈ (run evalStep start twoEvents).fires, f.cause = .events [2, 3] := by
    decide +kernel
  rw [← step_eq_evalStep] at hfacts
  obtain ⟨hstopped, hclock, f, hf, hcause⟩ := hfacts
  refine ⟨fun h => ?_, fun h => ?_, fun h => ?_⟩
  · exact absurd (h.minutes "sweep" (minuteKey 600)) (Nat.not_le.mpr hstopped)
  · exact absurd (h.minutes "sweep" (minuteKey 600)) (Nat.not_le.mpr hclock)
  · exact absurd (h f hf _ hcause) (by decide)

end Automations

end Modbit
