import Modbit.EventStore.RoundTrip
import Modbit.Lib.Cursor
import Mathlib.Data.List.Induction

/-!
# A client that polls the log

A client asks again and again for the events after the offset it was last given, from
the whole log or from one session, while other callers commit.  `Feed` names what it
asks for, `pollStep` is the store and one client, and a failed call leaves the client
where it was.

`pages_eq_committed` is the main result: the pages a client was ever given are, end to end,
the committed events of its feed up to its offset.
-/

namespace Modbit

open Lib List

/-! ### The calls of a client -/

/-- What a client asks for: `events_since_global`, or `session_events_since` of one
session. -/
inductive Feed where
  | global
  | session (sessionId : String)

namespace Feed

def since (db : Db) (afterOffset limit : Nat) :
    Feed → Except StoreError (List EventEnvelope × Nat)
  | .global => eventsSinceGlobal db afterOffset limit
  | .session sessionId => sessionEventsSince db sessionId afterOffset limit

def keep : Feed → EventRow → Bool
  | .global, _ => true
  | .session sessionId, r => r.sessionId = sessionId

def read : Feed → EventRow → Except StoreError EventEnvelope
  | .global, r => reconstructEnvelope r
  | .session _, r => (reconstructEnvelope r).map ({ · with payloadObjectHash := none })

end Feed

/-- The store and the offset a client was last given. -/
structure Polled where
  db : Db
  offset : Nat

/-- A call of another caller that may commit, or the next call of the client. -/
inductive PollOp where
  | commit (op : Op)
  | poll (limit : Nat)

inductive PollReply where
  | committed (r : Reply)
  | page (r : Except StoreError (List EventEnvelope × Nat))

def resumeOffset (offset : Nat) : Except StoreError (List EventEnvelope × Nat) → Nat
  | .ok (_, next) => next
  | .error _ => offset

def pollStep (feed : Feed) (s : Polled) : PollOp → Polled × PollReply
  | .commit op => (⟨(step s.db op).1, s.offset⟩, .committed (step s.db op).2)
  | .poll limit =>
    let r := feed.since s.db s.offset limit
    (⟨s.db, resumeOffset s.offset r⟩, .page r)

/-- A client that has not asked yet, of a fresh store. -/
def Polled.fresh : Polled := ⟨.empty, 0⟩

def PollReply.events : PollReply → List EventEnvelope
  | .page (.ok (events, _)) => events
  | .page (.error _) => []
  | .committed _ => []

def commits (ops : List PollOp) : List Op :=
  ops.filterMap (fun
    | .commit op => some op
    | .poll _ => none)

/-- The committed events of a feed with an offset of at most `offset`. -/
def committedUpTo (feed : Feed) (es : List EventEnvelope) (offset : Nat) : List EventEnvelope :=
  (es.take offset).filter (fun e => feed.keep e.storedRow)

/-- SQLite numbers rows by `i64` and refuses an insert when there is no number left. -/
def RowidsFit (db : Db) : Prop := db.events.length < 0x8000000000000000

instance (db : Db) : Decidable (RowidsFit db) := Nat.decLt _ _

/-! ### One page -/

theorem asI64_of_lt {n : Nat} (h : n < 0x8000000000000000) : asI64 n = n := by
  have hlo : -(0x10000000000000000 : Int) ≤ (n : Int) * 2 := by omega
  have hhi : (n : Int) * 2 < 0x10000000000000000 := by omega
  exact Int.bmod_eq_of_le_mul_two hlo hhi

theorem limitTo_eq_take {α : Type} (limit : Int) (l : List α) : ∃ n, limitTo limit l = l.take n := by
  rw [limitTo]
  split
  · exact ⟨l.length, l.take_length.symm⟩
  · exact ⟨limit.toNat, rfl⟩

def Feed.rows (feed : Feed) (db : Db) : List (EventRow × Nat) :=
  (db.events.zipIdx 1).filter (fun r => feed.keep r.1)

theorem rows_increasing (feed : Feed) (db : Db) : Increasing Prod.snd (feed.rows db) := by
  have hidx : Increasing Prod.snd (db.events.zipIdx 1) := by
    have hrange : ((db.events.zipIdx 1).map Prod.snd).Pairwise (· < ·) := by
      rw [zipIdx_map_snd]
      exact pairwise_lt_range'
    exact pairwise_map.mp hrange
  exact hidx.filter _

variable {feed : Feed} {db : Db} {afterOffset : Nat}

theorem selectSince_beyond (h : afterOffset < 0x8000000000000000) :
    selectSince db feed.keep (asI64 afterOffset) = beyond Prod.snd afterOffset (feed.rows db) := by
  rw [selectSince, beyond, Feed.rows, filter_filter, asI64_of_lt h]
  refine filter_congr (fun r _ => ?_)
  rw [Bool.and_comm]
  simp

theorem since_eq (feed : Feed) (db : Db) (limit : Nat) (h : afterOffset < 0x8000000000000000) :
    ∃ n, feed.since db afterOffset limit =
      (do
        let out ← ((beyond Prod.snd afterOffset (feed.rows db)).take n).mapM
          (fun r => feed.read r.1)
        return (out, resumeAt Prod.snd afterOffset
          ((beyond Prod.snd afterOffset (feed.rows db)).take n))) := by
  obtain ⟨n, hn⟩ := limitTo_eq_take (asI64 limit) (beyond Prod.snd afterOffset (feed.rows db))
  refine ⟨n, ?_⟩
  rw [← hn, ← selectSince_beyond h]
  cases feed with
  | global => rfl
  | session sessionId =>
    rw [Feed.since, sessionEventsSince]
    congr 1

/-- What was read back so far: the feed's rows up to the client's offset. -/
def Received (feed : Feed) (s : Polled) (events : List EventEnvelope) : Prop :=
  (upTo Prod.snd s.offset (feed.rows s.db)).mapM (fun r => feed.read r.1) = .ok events

variable {s : Polled}

theorem received_poll {events : List EventEnvelope}
    (h : Received feed s events) (hfit : s.offset < 0x8000000000000000) (limit : Nat) :
    Received feed (pollStep feed s (.poll limit)).1
      (events ++ (pollStep feed s (.poll limit)).2.events) := by
  obtain ⟨n, hn⟩ := since_eq feed s.db limit hfit
  cases hout : ((beyond Prod.snd s.offset (feed.rows s.db)).take n).mapM
      (fun r => feed.read r.1) with
  | error x =>
    rw [hout, error_bind] at hn
    simp only [pollStep, hn, resumeOffset, PollReply.events, append_nil]
    exact h
  | ok out =>
    rw [hout, ok_bind] at hn
    simp only [pollStep, hn, pure_eq_ok, resumeOffset, PollReply.events]
    rw [Received, upTo_take (rows_increasing feed s.db), mapM_append, h, ok_bind, hout, ok_bind]
    rfl

/-! ### A commit beside the client -/

theorem rows_extend (feed : Feed) {db db' : Db} {es : List EventEnvelope}
    (h : Extended db es db') : ∃ more, feed.rows db' = feed.rows db ++ more ∧
      ∀ r ∈ more, db.events.length < r.2 := by
  refine ⟨((es.map EventEnvelope.storedRow).zipIdx (1 + db.events.length)).filter
    (fun r => feed.keep r.1), ?_, ?_⟩
  · rw [Feed.rows, h.events, zipIdx_append, filter_append]
    rfl
  · intro r hr
    have hle := le_snd_of_mem_zipIdx (mem_filter.mp hr).1
    omega

theorem received_commit {events : List EventEnvelope}
    (h : Received feed s events) (hoff : s.offset ≤ s.db.events.length)
    (hg : GaplessLog s.db.events) (op : Op) :
    Received feed (pollStep feed s (.commit op)).1 events := by
  obtain ⟨more, hrows, hmore⟩ := rows_extend feed (step_extended hg op)
  have hlater : ∀ r ∈ more, s.offset < r.2 := fun r hr => lt_of_le_of_lt hoff (hmore r hr)
  show (upTo Prod.snd s.offset (feed.rows (step s.db op).1)).mapM _ = _
  rw [hrows, upTo_append_of_beyond hlater]
  exact h

theorem resumeAt_le {afterOffset n : Nat} (h : afterOffset ≤ db.events.length) :
    resumeAt Prod.snd afterOffset ((beyond Prod.snd afterOffset (feed.rows db)).take n)
      ≤ db.events.length := by
  rw [resumeAt]
  cases hlast : ((beyond Prod.snd afterOffset (feed.rows db)).take n).getLast? with
  | none => exact h
  | some r =>
    have hmem := mem_of_mem_take (mem_of_getLast? hlast)
    have hidx := (mem_filter.mp (mem_filter.mp hmem).1).1
    have hlt := snd_lt_add_of_mem_zipIdx hidx
    show r.2 ≤ db.events.length
    omega

theorem poll_offset_le (hfit : s.offset < 0x8000000000000000)
    (hoff : s.offset ≤ s.db.events.length) (limit : Nat) :
    (pollStep feed s (.poll limit)).1.offset ≤ s.db.events.length := by
  obtain ⟨n, hn⟩ := since_eq feed s.db limit hfit
  show resumeOffset s.offset (feed.since s.db s.offset limit) ≤ _
  rw [hn]
  cases ((beyond Prod.snd s.offset (feed.rows s.db)).take n).mapM (fun r => feed.read r.1) with
  | error x => exact hoff
  | ok out => exact resumeAt_le hoff

/-! ### Every run -/

def pages (feed : Feed) (ops : List PollOp) : List EventEnvelope :=
  (replies (pollStep feed) .fresh ops).flatMap PollReply.events

theorem pages_concat (feed : Feed) (ops : List PollOp) (op : PollOp) :
    pages feed (ops ++ [op])
      = pages feed ops ++ (pollStep feed (run (pollStep feed) .fresh ops) op).2.events := by
  rw [pages, replies_concat, flatMap_append, flatMap_singleton]
  rfl

theorem run_concat (ops : List PollOp) (op : PollOp) : run (pollStep feed) .fresh (ops ++ [op])
      = (pollStep feed (run (pollStep feed) .fresh ops) op).1 := by
  rw [run_append]
  rfl

theorem polled_db (feed : Feed) (ops : List PollOp) :
    (run (pollStep feed) .fresh ops).db = Db.after (commits ops) := by
  induction ops using List.reverseRecOn with
  | nil => rfl
  | append_singleton ops op ih =>
    rw [run_concat, commits, filterMap_append]
    cases op with
    | commit op =>
      show (step _ op).1 = Db.after (commits ops ++ [op])
      rw [ih, after_concat]
    | poll limit =>
      show (run (pollStep feed) .fresh ops).db = Db.after (commits ops ++ [])
      rw [append_nil, ih]

theorem received_run (feed : Feed) (ops : List PollOp) :
    RowidsFit (Db.after (commits ops)) →
    Received feed (run (pollStep feed) .fresh ops) (pages feed ops) ∧
      (run (pollStep feed) .fresh ops).offset ≤ (Db.after (commits ops)).events.length := by
  induction ops using List.reverseRecOn with
  | nil => exact fun _ => ⟨rfl, Nat.le_refl 0⟩
  | append_singleton ops op ih =>
    have hdb := polled_db feed ops
    have hg : GaplessLog (run (pollStep feed) .fresh ops).db.events := hdb ▸ after_gapless _
    intro hfit
    rw [run_concat, pages_concat]
    cases op with
    | commit op =>
      have hc : commits (ops ++ [.commit op]) = commits ops ++ [op] := filterMap_append
      rw [hc, after_concat, ← hdb] at hfit ⊢
      have hlen : (run (pollStep feed) .fresh ops).db.events.length
          ≤ (step (run (pollStep feed) .fresh ops).db op).1.events.length := by
        rw [(step_extended hg op).events, length_append]
        exact Nat.le_add_right _ _
      obtain ⟨hrec, hoff⟩ := ih (by rw [← hdb]; exact lt_of_le_of_lt hlen hfit)
      rw [← hdb] at hoff
      refine ⟨?_, le_trans hoff hlen⟩
      have := received_commit hrec hoff hg op
      rwa [← append_nil (pages feed ops)] at this
    | poll limit =>
      have hc : commits (ops ++ [.poll limit]) = commits ops := by
        rw [commits, filterMap_append]
        exact append_nil _
      rw [hc] at hfit ⊢
      obtain ⟨hrec, hoff⟩ := ih hfit
      have hlt : (run (pollStep feed) .fresh ops).offset < 0x8000000000000000 :=
        lt_of_le_of_lt hoff hfit
      rw [← hdb] at hoff ⊢
      exact ⟨received_poll hrec hlt limit, poll_offset_le hlt hoff limit⟩

theorem upTo_zipIdx {α : Type} (offset : Nat) : ∀ (l : List α) (k : Nat),
    upTo Prod.snd (k + offset) (l.zipIdx (k + 1)) = (l.zipIdx (k + 1)).take offset := by
  induction offset with
  | zero =>
    intro l k
    refine upTo_eq_nil (fun x hx => ?_)
    have := le_snd_of_mem_zipIdx hx
    omega
  | succ offset ih =>
    intro l k
    cases l with
    | nil => rfl
    | cons a l =>
      have hhead : upTo Prod.snd (k + (offset + 1)) ((a, k + 1) :: l.zipIdx (k + 1 + 1))
          = (a, k + 1) :: upTo Prod.snd (k + (offset + 1)) (l.zipIdx (k + 1 + 1)) :=
        filter_cons_of_pos (by simp)
      rw [zipIdx_cons, hhead, take_succ_cons, ← ih l (k + 1)]
      rw [show k + (offset + 1) = k + 1 + offset by omega]

theorem upTo_rows (feed : Feed) {es : List EventEnvelope}
    (h : db.events = es.map EventEnvelope.storedRow) (offset : Nat) :
    (upTo Prod.snd offset (feed.rows db)).map Prod.fst
      = (committedUpTo feed es offset).map EventEnvelope.storedRow := by
  have hcut := upTo_zipIdx offset db.events 0
  rw [Nat.zero_add, Nat.zero_add] at hcut
  have hcomm : upTo Prod.snd offset (feed.rows db)
      = (upTo Prod.snd offset (db.events.zipIdx 1)).filter (fun r => feed.keep r.1) := by
    rw [upTo, Feed.rows, filter_filter, upTo, filter_filter]
    exact filter_congr (fun r _ => Bool.and_comm _ _)
  have hfst : ((db.events.zipIdx 1).take offset).map Prod.fst = db.events.take offset := by
    rw [map_take, zipIdx_map_fst]
  have hfilter := filter_map (p := feed.keep) (f := Prod.fst)
    (l := (db.events.zipIdx 1).take offset)
  rw [hcomm, hcut]
  rw [hfst] at hfilter
  rw [committedUpTo]
  have hes := filter_map (p := feed.keep) (f := EventEnvelope.storedRow) (l := es.take offset)
  rw [map_take, ← h] at hes
  exact hfilter.symm.trans hes

theorem read_eventId {r : EventRow} {e : EventEnvelope} (h : feed.read r = .ok e) :
    e.eventId = r.eventId := by
  have hrec : ∀ {e}, reconstructEnvelope r = .ok e → e.eventId = r.eventId := by
    intro e h
    simp only [reconstructEnvelope, bind_eq_ok] at h
    obtain ⟨_, _, _, _, _, _, _, _, _, _, _, _, _, _, _, _, h⟩ := h
    rw [← Except.ok.inj h]
  cases feed with
  | global => exact hrec h
  | session sessionId =>
    obtain ⟨e', he', rfl⟩ := map_eq_ok.mp h
    show e'.eventId = r.eventId
    exact hrec he'

/-- **A polling client sees every committed event once and in order.**  In every
interleaving of its calls with those of other callers, the pages it was given are the
rows, read one by one, of the committed events of its feed up to its offset: the same
event ids in the same order, and the events themselves when they read back. -/
theorem pages_eq_committed (feed : Feed) (ops : List PollOp)
    (hfit : RowidsFit (Db.after (commits ops))) :
    let offset := (run (pollStep feed) .fresh ops).offset
    let seen := committedUpTo feed (written .empty (commits ops)) offset
    seen.mapM (fun e => feed.read e.storedRow) = .ok (pages feed ops) ∧
      (pages feed ops).map EventEnvelope.eventId = seen.map EventEnvelope.eventId ∧
      ((∀ e ∈ seen, feed.read e.storedRow = .ok e) → pages feed ops = seen) := by
  intro offset seen
  have hrec := (received_run feed ops hfit).1
  have hrows := upTo_rows feed (after_events (commits ops)) offset
  rw [Received, polled_db] at hrec
  have hread : seen.mapM (fun e => feed.read e.storedRow) = .ok (pages feed ops) := by
    have h1 := mapM_map (l := upTo Prod.snd offset (feed.rows (Db.after (commits ops))))
      (f := Prod.fst) (g := feed.read)
    have h2 := mapM_map (l := seen) (f := EventEnvelope.storedRow) (g := feed.read)
    rw [hrows] at h1
    exact h2.symm.trans (h1.trans hrec)
  refine ⟨hread, ?_, fun hback => ?_⟩
  · refine mapM_attribute (fun h => ?_) hread
    rw [read_eventId h]
    rfl
  · have hid := (mapM_eq_map (g := id)).mpr hback
    rw [map_id] at hid
    exact Except.ok.inj (hread.symm.trans hid)

/-- A step, evaluated without computing the hashes of a plan. -/
def evalPoll (feed : Feed) (s : Polled) : PollOp → Polled × PollReply
  | .commit op => (⟨(evalStep s.db op).1, s.offset⟩, .committed (evalStep s.db op).2)
  | .poll limit => pollStep feed s (.poll limit)

theorem pollStep_eq (feed : Feed) : pollStep feed = evalPoll feed := by
  funext s op
  cases op with
  | commit op => rw [pollStep, evalPoll, step_eq]
  | poll limit => rfl

/-- Two sessions and a task of the first, committed between the calls of a client. -/
def interleavedPolls : List PollOp :=
  let calls := sampleCalls [.createSession "s", .createSession "t",
    .createTask ⟨.ofNat 0⟩ "title" "prompt" none none none]
  calls.flatMap (fun call => [.commit call.op, .poll 1]) ++ [.poll 5]

/-- The client of the first session skips the second one, and sees two events. -/
theorem pages_interleavedPolls :
    let feed := Feed.session (Id.toText (⟨.ofNat 0⟩ : SessionId))
    (run (pollStep feed) .fresh interleavedPolls).offset = 3 ∧
      (pages feed interleavedPolls).length = 2 ∧
      (pages feed interleavedPolls).map EventEnvelope.eventId
        = (committedUpTo feed (written .empty (commits interleavedPolls)) 3).map
            EventEnvelope.eventId := by
  intro feed
  have hoffset : (run (pollStep feed) .fresh interleavedPolls).offset = 3 := by
    rw [pollStep_eq]
    decide +kernel
  have hfit : RowidsFit (Db.after (commits interleavedPolls)) := by
    rw [Db.after, step_eq]
    decide +kernel
  refine ⟨hoffset, ?_, ?_⟩
  · rw [pages, pollStep_eq]
    decide +kernel
  · have h := (pages_eq_committed feed interleavedPolls hfit).2.1
    rwa [hoffset] at h

end Modbit
