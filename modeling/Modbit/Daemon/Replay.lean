import Modbit.Daemon.EventStream
import Modbit.Protocol.TornLines

/-!
# What a client of the event stream receives

`page_eq` is the page after an offset: the next rows of the log, with the number of the last one as
the offset to go on from.  So the offset of a frame is the number of its event's row
(`numbered_ofEvent`).

A cursor in the journal says that a page was handed to the socket.  It is right about the client as
long as no frame of a page that was written whole is lost (`World.Keeps`); `World.Inv` is what holds
then, and `replay_run` is the replay the daemon promises.  `replay_lost` is a client that leaves before
it has read a page: the event is not sent again.
-/

namespace Modbit

open Lib List

namespace Daemon

open ProtocolState

/-! ### Pages -/

variable {db : Db} {since : Nat} {events : List EventEnvelope}

def page (db : Db) (since : Nat) : List EventRow := (db.events.drop since).take EVENTS_BATCH

theorem selectSince_drop (hfit : RowidsFit db) (h : since ≤ db.events.length) :
    selectSince db (fun _ => true) (asI64 since) = (db.events.drop since).zipIdx (since + 1) := by
  have hsplit : db.events.zipIdx 1
      = (db.events.take since).zipIdx 1 ++ (db.events.drop since).zipIdx (since + 1) := by
    have hlen : 1 + (db.events.take since).length = since + 1 := by
      rw [length_take, Nat.min_eq_left h, Nat.add_comm]
    have happend := @zipIdx_append _ (db.events.take since) (db.events.drop since) 1
    rwa [take_append_drop, hlen] at happend
  rw [selectSince, asI64_of_lt (lt_of_le_of_lt h hfit), hsplit, filter_append,
    filter_eq_nil_iff.mpr, filter_eq_self.mpr, nil_append]
  · intro r hr
    have := le_snd_of_mem_zipIdx hr
    simp only [Bool.true_and, decide_eq_true_eq]
    omega
  · intro r hr
    have := snd_lt_add_of_mem_zipIdx hr
    have := length_take_le since db.events
    simp only [Bool.true_and, decide_eq_true_eq]
    omega

theorem take_zipIdx {α : Type} (n : Nat) : ∀ (l : List α) (k : Nat),
    (l.zipIdx k).take n = (l.take n).zipIdx k := by
  induction n with
  | zero => intro l k; rfl
  | succ n ih =>
    intro l k
    cases l with
    | nil => rfl
    | cons a l => rw [zipIdx_cons, take_succ_cons, take_succ_cons, zipIdx_cons, ih]

/-- **A page is the next rows of the log.** -/
theorem page_eq (hfit : RowidsFit db) (h : since ≤ db.events.length) :
    eventsSinceGlobal db since EVENTS_BATCH =
      ((page db since).mapM reconstructEnvelope).map
        (fun out => (out, since + (page db since).length)) := by
  have hbatch : asI64 EVENTS_BATCH = 100 := by decide
  have hrows : limitTo (asI64 EVENTS_BATCH) (selectSince db (fun _ => true) (asI64 since))
      = (page db since).zipIdx (since + 1) := by
    rw [selectSince_drop hfit h, hbatch, limitTo, if_neg (by decide)]
    exact take_zipIdx 100 _ _
  have hlast : lastOffset since ((page db since).zipIdx (since + 1))
      = since + (page db since).length := by
    rw [lastOffset, getLast?_zipIdx]
    cases hpage : (page db since).getLast? with
    | none =>
      rw [getLast?_eq_none_iff.mp hpage]
      rfl
    | some r =>
      show since + 1 + (page db since).length - 1 = _
      omega
  have hread : ((page db since).zipIdx (since + 1)).mapM (fun r => reconstructEnvelope r.1)
      = (page db since).mapM reconstructEnvelope := by
    have hmap := mapM_map (l := (page db since).zipIdx (since + 1)) (f := Prod.fst)
      (g := reconstructEnvelope)
    rw [zipIdx_map_fst] at hmap
    exact hmap.symm
  rw [eventsSinceGlobal, hrows, hread, hlast]
  cases (page db since).mapM reconstructEnvelope with
  | error x => rfl
  | ok out => rfl

theorem page_eventIds (hread : (page db since).mapM reconstructEnvelope = .ok events) :
    events.map EventEnvelope.eventId = (page db since).map EventRow.eventId :=
  mapM_attribute (fun h => @read_eventId .global _ _ h) hread

/-- A frame that has the number of its event's row. -/
def Numbered (db : Db) (f : Frame) : Prop :=
  ∃ k r, db.events[k]? = some r ∧ f.eventId = r.eventId ∧ f.offset = k + 1

theorem page_getElem? (k : Nat) (hk : k < (page db since).length) :
    (page db since)[k]? = db.events[since + k]? := by
  have hlt : k < EVENTS_BATCH := lt_of_lt_of_le hk (length_take_le _ _)
  rw [page, getElem?_take_of_lt hlt, getElem?_drop]

theorem page_distinct (h : DistinctIds db) : ((page db since).map EventRow.eventId).Nodup :=
  h.sublist (((take_sublist _ _).trans (drop_sublist _ _)).map _)

/-- **The offset of a frame is the number of its event's row**, and every row of the page has its
frame. -/
theorem numbered_ofEvent (h : DistinctIds db)
    (hread : (page db since).mapM reconstructEnvelope = .ok events) {k : Nat}
    (hk : k < (page db since).length) :
    ∃ f r, (events.map (Frame.ofEvent since events))[k]? = some f ∧ db.events[since + k]? = some r ∧
      f.eventId = r.eventId ∧ f.offset = since + k + 1 := by
  have hids := page_eventIds hread
  have hlen : events.length = (page db since).length := by
    have := congrArg List.length hids
    rwa [length_map, length_map] at this
  have hk' : k < events.length := hlen ▸ hk
  have hrow := page_getElem? k hk
  rw [getElem?_eq_getElem hk] at hrow
  refine ⟨Frame.ofEvent since events events[k], (page db since)[k], ?_, hrow.symm, ?_, ?_⟩
  · rw [getElem?_map, getElem?_eq_getElem hk']
    rfl
  · have hid := congrArg (fun l : List String => l[k]?) hids
    rw [getElem?_map, getElem?_map, getElem?_eq_getElem hk, getElem?_eq_getElem hk'] at hid
    exact Option.some.inj hid
  · -- the id is found where the event is, for it is nowhere else
    have hnodup : (events.map EventEnvelope.eventId).Nodup := hids ▸ page_distinct h
    have hfind : events.findIdx? (fun x => x.eventId = events[k].eventId) = some k := by
      rw [findIdx?_eq_some_iff_getElem]
      refine ⟨hk', decide_eq_true rfl, fun j hj hsame => ?_⟩
      have hne := nodup_iff_injective_getElem.mp hnodup
      have hidx : (⟨j, by rw [length_map]; omega⟩ : Fin (events.map EventEnvelope.eventId).length)
          = ⟨k, by rw [length_map]; omega⟩ := hne (by
        simpa using hsame)
      have := congrArg Fin.val hidx
      dsimp only at this
      omega
    show since + ((events.findIdx? _).map (· + 1)).getD 0 = since + k + 1
    rw [hfind]
    rfl

theorem page_length (hread : (page db since).mapM reconstructEnvelope = .ok events) :
    (events.map (Frame.ofEvent since events)).length = (page db since).length := by
  have := congrArg List.length (page_eventIds hread)
  rwa [length_map, length_map, ← length_map (Frame.ofEvent since events)] at this

theorem numbered_of_mem (h : DistinctIds db)
    (hread : (page db since).mapM reconstructEnvelope = .ok events) {f : Frame}
    (hf : f ∈ events.map (Frame.ofEvent since events)) : Numbered db f := by
  obtain ⟨k, hk, rfl⟩ := mem_iff_getElem.mp hf
  obtain ⟨f, r, hf', hr, hid, hoff⟩ := numbered_ofEvent h hread (page_length hread ▸ hk)
  rw [getElem?_eq_getElem hk] at hf'
  obtain rfl := Option.some.inj hf'
  exact ⟨since + k, r, hr, hid, hoff⟩

theorem page_length_le (db : Db) (since : Nat) : (page db since).length ≤ db.events.length - since := by
  rw [page, length_take, length_drop]
  exact Nat.min_le_right _ _

/-! ### What the client is promised -/

/-- The frames of the pages that were written whole. -/
def SseStream.served (t : SseStream) : List Frame := t.frames.filter (fun f => f.offset ≤ t.since)

def Event.own : Event → Prop
  | .commit _ | .record _ _ | .start | .stop => False
  | _ => True

namespace World

variable (json : RecordJson) (client : String)

def resumePoint (w : World) : Nat :=
  match w.connection with
  | some t => t.since
  | none => cursor client (if w.up then w.store else (openStore json w.file).toOption)

/-- A frame holds the id of its event and its number in the log; asking for what comes after the
number gives the following events and nothing else. -/
def Resumes (w : World) (f : Frame) : Prop :=
  Numbered w.db f ∧ eventsSinceGlobal w.db f.offset EVENTS_BATCH =
    ((page w.db f.offset).mapM reconstructEnvelope).map
      (fun out => (out, f.offset + (page w.db f.offset).length))

def Delivered (w : World) : Prop := ∀ r ∈ w.db.events, ∃ f ∈ w.got, f.eventId = r.eventId

/-- The offset of every frame resumes at the next event. -/
def OffsetsResume (w : World) : Prop := ∀ t ∈ w.threads, ∀ f ∈ t.frames, w.Resumes f

/-- The replay the daemon promises.  No event is skipped: the client has it, it is on its way, or
the client is served from before it; and if the events can be read and the daemon runs, connecting
again and polling delivers all of them. -/
structure AtLeastOnce (w : World) : Prop where
  kept : ∀ k r, w.db.events[k]? = some r →
    (∃ f ∈ w.got, f.eventId = r.eventId) ∨ (∃ f ∈ w.unread, f.eventId = r.eventId) ∨
      w.resumePoint json client ≤ k
  delivers : w.up = true → (∀ r ∈ w.db.events, ∃ e, reconstructEnvelope r = .ok e) →
    ∃ events : List Event, (∀ e ∈ events, e.own) ∧
      (run (step json client) w events).Delivered

/-- No frame of a page that was written whole is lost: the client has read them all when it leaves,
and the thread of a connection it has left finds nothing more to write or fails to write it. -/
def Keeps (w : World) : Event → Prop
  | .disconnect => ∀ t, w.connection = some t → ∀ f ∈ t.served, f ∈ whole w.read t.frames
  | .poll i accepted _ => w.current = some i ∨ ∀ t, w.threads[i]? = some t → t.running = true →
      match eventsSinceGlobal w.db t.since EVENTS_BATCH with
      | .error _ => True
      | .ok (events, _) => events = [] ∨ accepted < size (events.map (Frame.ofEvent t.since events))
  | _ => True

end World

/-! ### The invariant -/

namespace World

variable {json : RecordJson} {client : String} {p : Prop} {w w' : World}

/-- The frames of whole pages that the client has or will have if it reads on. -/
def served (w : World) : List Frame := (w.connection.map SseStream.served).getD []

/-- An offset is in the log and, if `p`, the client has the events up to it or is about to read
them.  Of a run that loses pages `p` is false. -/
def Covered (p : Prop) (w : World) (offset : Nat) : Prop :=
  offset ≤ w.db.events.length ∧ (p → ∀ k < offset, ∀ r, w.db.events[k]? = some r →
    ∃ f ∈ w.received ++ w.served, f.eventId = r.eventId)

/-- A record does not say more of the client than is so. -/
def Sound (p : Prop) (client : String) (w : World) (r : ProtocolRecord) : Prop :=
  ∀ offset, r.cursorOf client = some offset → w.Covered p offset.toNat

/-- A frame that is read or on its way stays so, and the log grows. -/
structure Later (p : Prop) (w w' : World) : Prop where
  events : ∃ more, w'.db.events = w.db.events ++ more
  frames : p → ∀ f ∈ w.received ++ w.served, f ∈ w'.received ++ w'.served

theorem Later.covered (h : Later p w w') {offset : Nat} (hc : w.Covered p offset) :
    w'.Covered p offset := by
  obtain ⟨more, hmore⟩ := h.events
  refine ⟨?_, fun hp k hk r hr => ?_⟩
  · rw [hmore, length_append]
    exact le_trans hc.1 (Nat.le_add_right _ _)
  · rw [hmore, getElem?_append_left (lt_of_lt_of_le hk hc.1)] at hr
    obtain ⟨f, hf, hid⟩ := hc.2 hp k hk r hr
    exact ⟨f, h.frames hp f hf, hid⟩

theorem Later.sound (h : Later p w w') {r : ProtocolRecord} (hs : w.Sound p client r) :
    w'.Sound p client r :=
  fun offset ho => h.covered (hs offset ho)

theorem Later.numbered (h : Later p w w') {f : Frame} (hf : Numbered w.db f) : Numbered w'.db f := by
  obtain ⟨more, hmore⟩ := h.events
  obtain ⟨k, r, hk, hid, hoff⟩ := hf
  refine ⟨k, r, ?_, hid, hoff⟩
  rw [hmore, getElem?_append_left (List.getElem?_eq_some_iff.mp hk).1]
  exact hk

theorem later_of_eq (hdb : w'.db = w.db) (hreceived : w'.received = w.received)
    (hserved : w'.served = w.served) : Later p w w' :=
  ⟨⟨[], by rw [hdb, append_nil]⟩, fun _ f hf => by rwa [hreceived, hserved]⟩

/-- What holds of the daemon and, if `p`, of the client: no whole page was lost. -/
structure Inv (p : Prop) (json : RecordJson) (client : String) (w : World) : Prop where
  gapless : GaplessLog w.db.events
  distinct : DistinctIds w.db
  fits : RowidsFit w.db
  current : ∀ i, w.current = some i → i < w.threads.length
  covered : ∀ t ∈ w.threads, w.Covered p t.since
  numbered : ∀ t ∈ w.threads, ∀ f ∈ t.frames, Numbered w.db f
  journal : Jotted json (w.Sound p client) (w.file.getD [])
  store : ∀ s, w.store = some s → ∀ r ∈ s.records, w.Sound p client r

theorem inv_fresh (p : Prop) (json : RecordJson) (client : String) : Inv p json client fresh where
  gapless := gapless_nil
  distinct := nodup_nil
  fits := by decide
  current i h := by cases h
  covered t ht := by cases ht
  numbered t ht := by cases ht
  journal := .nil
  store s h := by cases h

/-- A step that leaves the log and the journal's file, after which every thread is one there was or
is right by itself. -/
theorem Inv.later (h : w.Inv p json client) (hl : Later p w w') (hdb : w'.db = w.db)
    (hcurrent : ∀ i, w'.current = some i → i < w'.threads.length)
    (hthreads : ∀ t' ∈ w'.threads, (∃ t ∈ w.threads, t'.since = t.since ∧ t'.frames = t.frames) ∨
      w'.Covered p t'.since ∧ ∀ f ∈ t'.frames, Numbered w.db f)
    (hfile : w'.file = w.file) (hstore : ∀ s, w'.store = some s → ∀ r ∈ s.records, w'.Sound p client r) :
    w'.Inv p json client where
  gapless := hdb ▸ h.gapless
  distinct := hdb ▸ h.distinct
  fits := hdb ▸ h.fits
  current := hcurrent
  covered t' ht' := by
    rcases hthreads t' ht' with ⟨t, ht, hsince, -⟩ | ⟨hc, -⟩
    · exact hsince ▸ hl.covered (h.covered t ht)
    · exact hc
  numbered t' ht' f hf := by
    rcases hthreads t' ht' with ⟨t, ht, -, hframes⟩ | ⟨-, hn⟩
    · exact hl.numbered (h.numbered t ht f (hframes ▸ hf))
    · exact hl.numbered (hn f hf)
  journal := hfile ▸ h.journal.mono (fun r => hl.sound)
  store := hstore

theorem Inv.append (h : w.Inv p json client) {r : ProtocolRecord} (hr : w.Sound p client r) (kept : Nat) :
    (w.append json r kept).Inv p json client := by
  rw [World.append]
  cases hs : w.store with
  | none => exact h
  | some store =>
    have hl : Later p w { w with
        file := some (w.file.getD [] ++ (line json r).take kept)
        store := some (if (line json r).length ≤ kept then ⟨store.records ++ [r]⟩ else store) } :=
      later_of_eq rfl rfl rfl
    refine ⟨h.gapless, h.distinct, h.fits, h.current, fun t ht => hl.covered (h.covered t ht),
      fun t ht f hf => hl.numbered (h.numbered t ht f hf), ?_, ?_⟩
    · exact (h.journal.append hr kept).mono (fun r' => hl.sound)
    · intro s hs' r' hr'
      obtain rfl := Option.some.inj hs'
      split_ifs at hr'
      · rcases mem_append.mp hr' with hr' | hr'
        · exact hl.sound (h.store store hs r' hr')
        · exact hl.sound (mem_singleton.mp hr' ▸ hr)
      · exact hl.sound (h.store store hs r' hr')

theorem Inv.cursor_covered {store : Option ProtocolStateStore}
    (h : ∀ s, store = some s → ∀ r ∈ s.records, w.Sound p client r) : w.Covered p
    (cursor client store) := by
  have hzero : w.Covered p 0 := ⟨Nat.zero_le _, fun _ k hk => absurd hk (Nat.not_lt_zero k)⟩
  rw [cursor]
  split_ifs
  · exact hzero
  · cases store with
    | none => exact hzero
    | some s =>
      rw [Option.bind_some]
      cases hlast : s.lastCursor client with
      | none => exact hzero
      | some offset =>
        obtain ⟨r, hr, hcur⟩ := exists_of_findSome?_eq_some hlast
        exact h s rfl r (mem_reverse.mp hr) offset hcur

theorem Inv.opened (hjson : json.Unspliced) (h : w.Inv p json client) :
    ∀ s, (openStore json w.file).toOption = some s → ∀ r ∈ s.records, w.Sound p client r := by
  intro s hs
  rw [openStore_getD] at hs
  cases hopen : openStore json (some (w.file.getD [])) with
  | error e =>
    rw [hopen] at hs
    cases hs
  | ok s' =>
    rw [hopen] at hs
    obtain rfl := Option.some.inj hs
    exact jotted_offered hjson h.journal hopen

/-! ### One turn of a thread -/

variable {i : Nat} {t t' : SseStream}

theorem connection_set (ht : w.threads[i]? = some t) :
    ({ w with threads := w.threads.set i t' } : World).connection
      = if w.current = some i then some t' else w.connection := by
  rw [connection, connection]
  split_ifs with hcur
  · rw [hcur, Option.bind_some, getElem?_set_self (List.getElem?_eq_some_iff.mp ht).1]
  · cases hc : w.current with
    | none => rfl
    | some j =>
      rw [Option.bind_some, Option.bind_some, getElem?_set_ne]
      rintro rfl
      exact hcur hc

theorem later_set (ht : w.threads[i]? = some t) (hserved : ∀ f ∈ t.served, f ∈ t'.served) :
    Later p w { w with threads := w.threads.set i t' } := by
  refine ⟨⟨[], (append_nil _).symm⟩, fun _ f hf => ?_⟩
  rcases mem_append.mp hf with hf | hf
  · exact mem_append_left _ hf
  · refine mem_append_right _ ?_
    rw [World.served, connection_set ht]
    split_ifs with hcur
    · have hconn : w.connection = some t := by rw [connection, hcur, Option.bind_some, ht]
      rw [World.served, hconn] at hf
      exact hserved f hf
    · exact hf

theorem mem_set (ht : t ∈ w.threads.set i t') : t ∈ w.threads ∨ t = t' :=
  mem_or_eq_of_mem_set ht

theorem Inv.cut (h : w.Inv p json client) (ht : w.threads[i]? = some t)
    {frames : List Frame} (hframes : ∀ f ∈ frames, Numbered w.db f) :
    ({ w with threads := w.threads.set i ⟨t.since, t.frames ++ frames, false⟩ } : World).Inv p
      json client := by
  have hmem : t ∈ w.threads := mem_of_getElem? ht
  have hl : Later p w { w with threads := w.threads.set i ⟨t.since, t.frames ++ frames, false⟩ } := by
    refine later_set ht (fun f hf => ?_)
    obtain ⟨hf, hoff⟩ := mem_filter.mp hf
    exact mem_filter.mpr ⟨mem_append_left _ hf, hoff⟩
  refine h.later hl rfl (fun j hj => ?_) (fun t' ht' => ?_) rfl
    (fun s hs r hr => hl.sound (h.store s hs r hr))
  · rw [length_set]
    exact h.current j hj
  · rcases mem_set ht' with ht' | rfl
    · exact Or.inl ⟨t', ht', rfl, rfl⟩
    · refine Or.inr ⟨hl.covered (h.covered t hmem), fun f hf => ?_⟩
      rcases mem_append.mp hf with hf | hf
      · exact h.numbered t hmem f hf
      · exact hframes f hf

/-- A page that was written whole moves the thread, if the client is on its connection or the page is
empty. -/
theorem Inv.moved (h : w.Inv p json client) (ht : w.threads[i]? = some t)
    {events : List EventEnvelope} (hread : (page w.db t.since).mapM reconstructEnvelope = .ok events)
    (hcur : p → w.current = some i ∨ events = []) :
    let t' : SseStream := ⟨t.since + (page w.db t.since).length,
      t.frames ++ events.map (Frame.ofEvent t.since events), true⟩
    let w' : World := { w with threads := w.threads.set i t' }
    w'.Inv p json client ∧ w'.Covered p (t.since + (page w.db t.since).length) := by
  intro t' w'
  have hmem : t ∈ w.threads := mem_of_getElem? ht
  have hold := h.covered t hmem
  have hl : Later p w w' := by
    refine later_set ht (fun f hf => ?_)
    obtain ⟨hf, hoff⟩ := mem_filter.mp hf
    have hoff := of_decide_eq_true hoff
    refine mem_filter.mpr ⟨mem_append_left _ hf, decide_eq_true ?_⟩
    exact le_trans hoff (Nat.le_add_right _ _)
  have hcovered : w'.Covered p (t.since + (page w.db t.since).length) := by
    have hle := page_length_le w.db t.since
    refine ⟨by have := hold.1; show _ ≤ w.db.events.length; omega, fun hp k hk r hr => ?_⟩
    by_cases hbefore : k < t.since
    · exact (hl.covered hold).2 hp k hbefore r hr
    · -- a row of the page, so the client is on the connection
      obtain ⟨j, rfl⟩ := Nat.exists_eq_add_of_le (Nat.le_of_not_lt hbefore)
      have hj : j < (page w.db t.since).length := by omega
      obtain ⟨f, r', hf, hr', hid, hoff⟩ := numbered_ofEvent h.distinct hread hj
      obtain rfl := Option.some.inj (hr'.symm.trans hr)
      have hne : events ≠ [] := by
        rintro rfl
        cases hf
      have hconn : w'.connection = some _ := (connection_set ht).trans (if_pos ((hcur hp).resolve_right hne))
      refine ⟨f, mem_append_right _ ?_, hid⟩
      rw [World.served, hconn]
      refine mem_filter.mpr ⟨mem_append_right _ (mem_of_getElem? hf), decide_eq_true ?_⟩
      show f.offset ≤ t.since + (page w.db t.since).length
      omega
  refine ⟨h.later hl rfl (fun j hj => ?_) (fun t' ht' => ?_) rfl
    (fun s hs r hr => hl.sound (h.store s hs r hr)), hcovered⟩
  · rw [length_set]
    exact h.current j hj
  · rcases mem_set ht' with ht' | rfl
    · exact Or.inl ⟨t', ht', rfl, rfl⟩
    · refine Or.inr ⟨hcovered, fun f hf => ?_⟩
      rcases mem_append.mp hf with hf | hf
      · exact h.numbered t hmem f hf
      · exact numbered_of_mem h.distinct hread hf

theorem whole_subset : ∀ (frames : List Frame) (n : Nat), whole n frames <+: frames := by
  intro frames
  induction frames with
  | nil => intro n; exact nil_prefix
  | cons f frames ih =>
    intro n
    rw [whole]
    split_ifs
    · exact cons_prefix_cons.mpr ⟨rfl, ih _⟩
    · exact nil_prefix

theorem sound_cursor (hfit : RowidsFit w.db) {n : Nat} (h : w.Covered p n) :
    w.Sound p client (.terminalCursor client (UInt64.ofNat n)) := by
  intro offset ho
  rw [ProtocolRecord.cursorOf, if_pos rfl] at ho
  have hn : (UInt64.ofNat n).toNat = n := by
    have hlt : n < 0x8000000000000000 := lt_of_le_of_lt h.1 hfit
    exact UInt64.toNat_ofNat_of_lt' (lt_trans hlt (by decide))
  rw [← Option.some.inj ho, hn]
  exact h

/-- **One turn keeps the invariant.** -/
theorem Inv.turn (h : w.Inv p json client) (ht : w.threads[i]? = some t) {accepted kept : Nat}
    (hkeeps : p → w.current = some i ∨
      match eventsSinceGlobal w.db t.since EVENTS_BATCH with
      | .error _ => True
      | .ok (events, _) => events = [] ∨ accepted < size (events.map (Frame.ofEvent t.since events))) :
    (w.turn json client i t accepted kept).Inv p json client := by
  have hmem : t ∈ w.threads := mem_of_getElem? ht
  have hpage := page_eq h.fits (h.covered t hmem).1
  rw [World.turn]
  rw [hpage] at hkeeps ⊢
  cases hread : (page w.db t.since).mapM reconstructEnvelope with
  | error e =>
    have hnone : ∀ f ∈ ([] : List Frame), Numbered w.db f := fun f hf => by cases hf
    have hstop := h.cut ht hnone
    rwa [append_nil] at hstop
  | ok events =>
    rw [hread] at hkeeps
    show World.Inv p json client (if accepted < size (events.map (Frame.ofEvent t.since events)) then _
      else _)
    split_ifs with hshort hclient
    · exact h.cut ht (fun f hf => numbered_of_mem h.distinct hread ((whole_subset _ _).subset hf))
    · exact (h.moved ht hread (fun hp => (hkeeps hp).imp_right (fun hk => hk.resolve_right hshort))).1
    · obtain ⟨hinv, hcov⟩ := h.moved ht hread (fun hp => (hkeeps hp).imp_right (fun hk => hk.resolve_right hshort))
      exact hinv.append (sound_cursor hinv.fits hcov) kept

/-- **Every step that loses no whole page keeps the invariant.** -/
theorem Inv.step (hjson : json.Unspliced) (h : w.Inv p json client) {e : Event}
    (hkeeps : p → w.Keeps e) :
    (w.step json client e).1.Inv p json client := by
  cases e with
  | start =>
    rw [World.step]
    split_ifs with hup
    · exact h
    · exact h.later (later_of_eq rfl rfl rfl) rfl h.current (fun t ht => Or.inl ⟨t, ht, rfl, rfl⟩) rfl
        (fun s hs r hr => (later_of_eq rfl rfl rfl).sound (h.opened hjson s hs r hr))
  | stop =>
    have hconn : (w.step json client .stop).1.connection
        = w.connection.map ({ · with running := false }) := by
      rw [World.step, connection, connection]
      cases w.current with
      | none => rfl
      | some i =>
        rw [Option.bind_some, Option.bind_some]
        exact getElem?_map
    have hserved : (w.step json client .stop).1.served = w.served := by
      rw [World.served, World.served, hconn]
      cases w.connection with
      | none => rfl
      | some t => rfl
    refine h.later (later_of_eq rfl rfl hserved) rfl (fun i hi => ?_) (fun t' ht' => ?_) rfl
      (fun s hs => by cases hs)
    · show i < (w.threads.map _).length
      rw [length_map]
      exact h.current i hi
    · obtain ⟨t, ht, rfl⟩ := mem_map.mp ht'
      exact Or.inl ⟨t, ht, rfl, rfl⟩
  | commit op =>
    rw [World.step]
    split_ifs with hfit
    · have hext := step_extended h.gapless op
      have hl : Later p w { w with db := (Modbit.step w.db op).1 } := ⟨⟨_, hext.events⟩, fun _ f hf => hf⟩
      exact ⟨hext.gapless, step_distinctIds h.distinct op, hfit, h.current,
        fun t ht => hl.covered (h.covered t ht), fun t ht f hf => hl.numbered (h.numbered t ht f hf),
        h.journal.mono (fun r => hl.sound), fun s hs r hr => hl.sound (h.store s hs r hr)⟩
    · exact h
  | connect =>
    rw [World.step]
    split_ifs with hcan
    · have hnone : w.served = [] := by
        rw [World.served, connection, hcan.2]
        rfl
      have hl : Later p w { w with
          threads := w.threads ++ [⟨cursor client w.store, [], true⟩]
          current := some w.threads.length
          read := 0 } := by
        refine ⟨⟨[], (append_nil _).symm⟩, fun _ f hf => ?_⟩
        rw [hnone, append_nil] at hf
        exact mem_append_left _ hf
      refine h.later hl rfl (fun i hi => ?_) (fun t ht => ?_) rfl
        (fun s hs r hr => hl.sound (h.store s hs r hr))
      · rw [← Option.some.inj hi]
        simp
      · rcases mem_append.mp ht with ht | ht
        · exact Or.inl ⟨t, ht, rfl, rfl⟩
        · rw [mem_singleton.mp ht]
          exact Or.inr ⟨hl.covered (Inv.cursor_covered h.store), fun f hf => by cases hf⟩
    · exact h
  | poll i accepted kept =>
    rw [World.step]
    cases ht : w.threads[i]? with
    | none => exact h
    | some t =>
      dsimp only
      split_ifs with hrun
      · exact h.turn ht (fun hp => (hkeeps hp).imp_right (fun hk => hk t ht hrun))
      · exact h
  | read n =>
    exact h.later (later_of_eq rfl rfl rfl) rfl h.current (fun t ht => Or.inl ⟨t, ht, rfl, rfl⟩) rfl
      (fun s hs r hr => (later_of_eq rfl rfl rfl).sound (h.store s hs r hr))
  | disconnect =>
    have hl : Later p w (w.step json client .disconnect).1 := by
      refine ⟨⟨[], (append_nil _).symm⟩, fun hp f hf => mem_append_left _ ?_⟩
      rcases mem_append.mp hf with hf | hf
      · exact mem_append_left _ hf
      · refine mem_append_right _ ?_
        cases hconn : w.connection with
        | none =>
          rw [World.served, hconn] at hf
          cases hf
        | some t =>
          rw [World.served, hconn] at hf
          rw [written, hconn]
          exact hkeeps hp t hconn f hf
    exact h.later hl rfl (fun i hi => by cases hi) (fun t ht => Or.inl ⟨t, ht, rfl, rfl⟩) rfl
      (fun s hs r hr => hl.sound (h.store s hs r hr))
  | record r kept =>
    rw [World.step]
    split_ifs with hr
    · refine h.append (fun offset ho => ?_) kept
      rw [hr] at ho
      cases ho
    · exact h

/-! ### What follows from the invariant -/

theorem whole_of_size_le : ∀ {frames : List Frame}
    {n : Nat}, size frames ≤ n → whole n frames = frames := by
  intro frames
  induction frames with
  | nil => intro n _; rfl
  | cons f frames ih =>
    intro n h
    have hcons : size (f :: frames) = f.line.length + size frames := by
      rw [size, size, map_cons, sum_cons]
    rw [hcons] at h
    rw [whole, if_pos (by omega), ih (by omega)]

theorem mem_written {f : Frame} : f ∈ w.written ↔ f ∈ whole w.read w.written ∨ f ∈ w.unread := by
  obtain ⟨rest, hrest⟩ := whole_subset w.written w.read
  have hunread : w.unread = rest := by
    have hdrop := @drop_left _ (whole w.read w.written) rest
    rwa [hrest] at hdrop
  rw [hunread, ← mem_append, hrest]

theorem Inv.kept (hjson : json.Unspliced) (h : w.Inv True json client) {k : Nat} {r : EventRow}
    (hr : w.db.events[k]? = some r) :
    (∃ f ∈ w.got, f.eventId = r.eventId) ∨ (∃ f ∈ w.unread, f.eventId = r.eventId) ∨
      w.resumePoint json client ≤ k := by
  by_cases hpoint : w.resumePoint json client ≤ k
  · exact Or.inr (Or.inr hpoint)
  have hlt := Nat.lt_of_not_le hpoint
  have hcov : w.Covered True (w.resumePoint json client) := by
    rw [resumePoint]
    cases hconn : w.connection with
    | some t =>
      obtain ⟨i, -, hi⟩ := Option.bind_eq_some_iff.mp hconn
      exact h.covered t (mem_of_getElem? hi)
    | none =>
      refine Inv.cursor_covered ?_
      split_ifs
      · exact h.store
      · exact h.opened hjson
  obtain ⟨f, hf, hid⟩ := hcov.2 trivial k hlt r hr
  rcases mem_append.mp hf with hf | hf
  · exact Or.inl ⟨f, mem_append_left _ hf, hid⟩
  · have hwritten : f ∈ w.written := by
      rw [World.served] at hf
      rw [written]
      cases hconn : w.connection with
      | none =>
        rw [hconn] at hf
        cases hf
      | some t =>
        rw [hconn] at hf
        exact (mem_filter.mp hf).1
    rcases mem_written.mp hwritten with hread | hunread
    · exact Or.inl ⟨f, mem_append_right _ hread, hid⟩
    · exact Or.inr (Or.inl ⟨f, hunread, hid⟩)

theorem Inv.delivered (hjson : json.Unspliced) (h : w.Inv True json client)
    (hconn : w.connection = some t) (hend : w.db.events.length ≤ t.since)
    (hread : w.unread = []) : w.Delivered := by
  intro r hr
  obtain ⟨k, hk⟩ := mem_iff_getElem?.mp hr
  rcases h.kept hjson hk with hgot | ⟨f, hf, -⟩ | hpoint
  · exact hgot
  · rw [hread] at hf
    cases hf
  · have hlt := (List.getElem?_eq_some_iff.mp hk).1
    rw [resumePoint, hconn] at hpoint
    exact absurd (le_trans hend hpoint) (Nat.not_le_of_lt hlt)

theorem append_frame (r : ProtocolRecord) (kept : Nat) :
    (w.append json r kept).db = w.db ∧ (w.append json r kept).threads = w.threads ∧
      (w.append json r kept).current = w.current := by
  rw [World.append]
  cases w.store with
  | none => exact ⟨rfl, rfl, rfl⟩
  | some store => exact ⟨rfl, rfl, rfl⟩

theorem Inv.poll (h : w.Inv p json client) (ht : w.threads[i]? = some t)
    (hrun : t.running = true) {events : List EventEnvelope}
    (hread : (page w.db t.since).mapM reconstructEnvelope = .ok events) :
    let w' := (w.step json client
      (.poll i (size (events.map (Frame.ofEvent t.since events))) 0)).1
    w'.db = w.db ∧ w'.current = w.current ∧ ∃ t', w'.threads[i]? = some t' ∧ t'.running = true ∧
      t'.since = t.since + (page w.db t.since).length := by
  intro w'
  have hmem : t ∈ w.threads := mem_of_getElem? ht
  have hpage := page_eq h.fits (h.covered t hmem).1
  rw [hread] at hpage
  have hset : ∀ t' : SseStream, (w.threads.set i t')[i]? = some t' := fun t' =>
    getElem?_set_self (List.getElem?_eq_some_iff.mp ht).1
  have hw : w' = w.turn json client i t (size (events.map (Frame.ofEvent t.since events))) 0 := by
    show (match w.threads[i]? with
      | some t => if t.running then _ else w
      | none => w) = _
    rw [ht]
    exact if_pos hrun
  let t' : SseStream := ⟨t.since + (page w.db t.since).length,
    t.frames ++ events.map (Frame.ofEvent t.since events), true⟩
  let moved : World := { w with threads := w.threads.set i t' }
  have hturn : w' = if client = "" then moved
      else moved.append json (.terminalCursor client (UInt64.ofNat t'.since)) 0 := by
    rw [hw, World.turn, hpage]
    exact if_neg (Nat.lt_irrefl _)
  rw [hturn]
  split_ifs
  · exact ⟨rfl, rfl, t', hset t', rfl, rfl⟩
  · obtain ⟨hdb, hthreads, hcurrent⟩ := @append_frame json moved
      (.terminalCursor client (UInt64.ofNat t'.since)) 0
    exact ⟨hdb, hcurrent, t', by rw [hthreads]; exact hset t', rfl, rfl⟩

theorem Inv.catchUp (hjson : json.Unspliced)
    (hrows : ∀ r ∈ w.db.events, ∃ e, reconstructEnvelope r = .ok e) (n : Nat) :
    ∀ {w' : World}, w'.Inv p json client → w'.db = w.db → ∀ {i : Nat} {t : SseStream},
      w'.current = some i → w'.threads[i]? = some t → t.running = true →
      w.db.events.length - t.since ≤ n →
      ∃ events : List Event, (∀ e ∈ events, e.own) ∧
        let v := run (World.step json client) w' events
        v.Inv p json client ∧ v.db = w.db ∧
          ∃ t', v.connection = some t' ∧ w.db.events.length ≤ t'.since := by
  induction n with
  | zero =>
    intro w' h hdb i t hcur ht _ hn
    refine ⟨[], fun e he => (by cases he), h, hdb, t, ?_, by omega⟩
    show w'.connection = some t
    rw [connection, hcur, Option.bind_some, ht]
  | succ n ih =>
    intro w' h hdb i t hcur ht hrun hn
    have hread : ∀ r ∈ page w'.db t.since, ∃ e, reconstructEnvelope r = .ok e := fun r hr =>
      hrows r (hdb ▸ mem_of_mem_drop (mem_of_mem_take hr))
    obtain ⟨envelopes, henvelopes⟩ := mapM_ok_iff.mpr hread
    obtain ⟨hdb', hcur', t', ht', hrun', hsince⟩ := h.poll ht hrun henvelopes
    have hstep := h.step hjson (e := .poll i (size (envelopes.map (Frame.ofEvent t.since envelopes))) 0)
      (fun _ => Or.inl hcur)
    by_cases hend : w.db.events.length ≤ t.since
    · refine ⟨[], fun e he => (by cases he), h, hdb, t, ?_, hend⟩
      show w'.connection = some t
      rw [connection, hcur, Option.bind_some, ht]
    · have hpos : 0 < (page w'.db t.since).length := by
        rw [page, length_take, length_drop, hdb]
        exact Nat.lt_min.mpr ⟨by decide, by omega⟩
      obtain ⟨events, hown, hrest⟩ := ih hstep (hdb'.trans hdb) (hcur'.trans hcur) ht' hrun' (by omega)
      refine ⟨_ :: events, fun e he => ?_, hrest⟩
      rcases mem_cons.mp he with rfl | he
      · exact trivial
      · exact hown e he

theorem keeps_disconnect (h : size w.written ≤ w.read) : w.Keeps .disconnect := by
  intro t hconn f hf
  have hwritten : w.written = t.frames := by rw [written, hconn]; rfl
  rw [hwritten] at h
  rw [whole_of_size_le h]
  exact (mem_filter.mp hf).1

theorem unread_of_size_le (h : size w.written ≤ w.read) : w.unread = [] := by
  rw [unread, whole_of_size_le h, drop_length]

theorem size_le_read : size (w.step json client (.read (size w.written))).1.written
    ≤ (w.step json client (.read (size w.written))).1.read := by
  show size w.written ≤ min (w.read + size w.written) (size w.written)
  omega

theorem Inv.delivers (hjson : json.Unspliced) (h : w.Inv True json client) (hup : w.up = true)
    (hrows : ∀ r ∈ w.db.events, ∃ e, reconstructEnvelope r = .ok e) :
    ∃ events : List Event, (∀ e ∈ events, e.own) ∧
      (run (World.step json client) w events).Delivered := by
  -- the client reads what there is, leaves and comes again
  let lead : List Event := [.read (size w.written), .disconnect, .connect]
  let w₁ := (w.step json client (.read (size w.written))).1
  let w₂ := (w₁.step json client .disconnect).1
  let w₃ := (w₂.step json client .connect).1
  have h₁ : w₁.Inv True json client := h.step hjson (e := .read (size w.written)) (fun _ => trivial)
  have h₂ : w₂.Inv True json client := h₁.step hjson (e := .disconnect) (fun _ => keeps_disconnect size_le_read)
  have h₃ : w₃.Inv True json client := h₂.step hjson (e := .connect) (fun _ => trivial)
  have hcan : w₂.up = true ∧ w₂.current = none := ⟨hup, rfl⟩
  have hw₃ : w₃ = { w₂ with
      threads := w₂.threads ++ [⟨cursor client w₂.store, [], true⟩]
      current := some w₂.threads.length
      read := 0 } := if_pos hcan
  have hthread : w₃.threads[w₂.threads.length]? = some ⟨cursor client w₂.store, [], true⟩ := by
    rw [hw₃]
    exact getElem?_concat_length
  have hcur : w₃.current = some w₂.threads.length := by rw [hw₃]
  have hdb : w₃.db = w.db := by rw [hw₃]; rfl
  obtain ⟨polls, hown, hinv, hdb', t, hconn, hend⟩ :=
    Inv.catchUp hjson hrows w.db.events.length h₃ hdb hcur hthread rfl (Nat.sub_le _ _)
  -- and reads to the end
  let v := run (World.step json client) w₃ polls
  refine ⟨lead ++ polls ++ [.read (size v.written)], fun e he => ?_, ?_⟩
  · simp only [mem_append, mem_singleton] at he
    rcases he with (he | he) | rfl
    · simp only [lead, mem_cons, not_mem_nil, or_false] at he
      rcases he with rfl | rfl | rfl
      · exact trivial
      · exact trivial
      · exact trivial
    · exact hown e he
    · exact trivial
  · rw [run_append, run_append]
    have hlast : (v.step json client (.read (size v.written))).1.Inv True json client :=
      hinv.step hjson (e := .read (size v.written)) (fun _ => trivial)
    refine hlast.delivered hjson (t := t) hconn ?_ (unread_of_size_le size_le_read)
    show v.db.events.length ≤ t.since
    rw [hdb']
    exact hend

theorem Inv.offsetsResume (h : w.Inv p json client) : w.OffsetsResume := by
  intro t ht f hf
  have hnum := h.numbered t ht f hf
  obtain ⟨k, r, hk, -, hoff⟩ := hnum
  refine ⟨h.numbered t ht f hf, page_eq h.fits ?_⟩
  have := (List.getElem?_eq_some_iff.mp hk).1
  omega

/-- **Offsets resume at the next event, in every run**, and a client that gives none misses no event
if no frame of a page that was written whole is lost. -/
theorem replay_run (json : RecordJson) (hjson : json.Unspliced) (client : String)
    (events : List Event) :
    (run (step json client) fresh events).OffsetsResume ∧
      (Admits (step json client) Keeps fresh events →
        (run (step json client) fresh events).AtLeastOnce json client) := by
  constructor
  · have hpath := @path_run _ _ _ (step json client) fresh events
    have hinv := hpath.invariant (I := fun w => w.Inv False json client)
      (inv_fresh False json client) (fun w e hw _ => hw.step hjson (e := e) False.elim)
    exact hinv.offsetsResume
  · intro h
    have hinv := (path_of_admits events h).invariant (I := fun w => w.Inv True json client)
      (inv_fresh True json client) (fun w e hw he => hw.step hjson (fun _ => he))
    exact ⟨fun k r hr => hinv.kept hjson hr, fun hup hrows => hinv.delivers hjson hup hrows⟩

/-- A step, evaluated without computing the hashes of a plan. -/
def evalStep (json : RecordJson) (client : String) (w : World) : Event → World × Unit
  | .commit op =>
    (if RowidsFit (Modbit.evalStep w.db op).1 then { w with db := (Modbit.evalStep w.db op).1 } else w, ())
  | e => w.step json client e

theorem step_eq (json : RecordJson) (client : String) : step json client = evalStep json client := by
  funext w e
  cases e with
  | commit op => rw [step, evalStep, Modbit.step_eq]
  | _ => rfl

/-- A session is created, and the client is sent its event. -/
def onePage : List Event :=
  .start :: (sampleCalls [.createSession "s"]).map (fun call => .commit call.op)
    ++ [.connect, .poll 0 1000 1000]

/-- The client reads the page and leaves, the daemon is restarted and commits a task, and the client
connects again. -/
def restarted : List Event :=
  onePage ++ [.read 1000, .disconnect, .stop, .start]
    ++ (sampleCalls [.createSession "s", .createTask ⟨.ofNat 0⟩ "task" "prompt" none none none]).tail.map
      (fun call => .commit call.op)
    ++ [.connect, .poll 1 1000 1000, .read 1000]

/-- The second connection goes on behind the event that was read in the first. -/
theorem replay_restarted :
    (run (step serdeRecord "c") fresh restarted).got.map Frame.offset = [1, 2] ∧
      (run (step serdeRecord "c") fresh restarted).AtLeastOnce serdeRecord "c" := by
  refine ⟨by rw [step_eq]; decide +kernel,
    (replay_run serdeRecord unspliced_serdeRecord "c" restarted).2 ?_⟩
  rw [step_eq]
  have hread : ∀ t ∈ (run (evalStep serdeRecord "c") fresh (onePage ++ [.read 1000])).connection,
      ∀ f ∈ t.served,
        f ∈ whole (run (evalStep serdeRecord "c") fresh (onePage ++ [.read 1000])).read t.frames := by
    decide +kernel
  refine ⟨trivial, trivial, trivial, Or.inl ?_, trivial, hread, trivial, trivial, trivial, trivial,
    Or.inl ?_, trivial, trivial⟩
  · decide +kernel
  · decide +kernel

/-- A client that leaves before it has read the page is not sent the event again. -/
theorem replay_lost :
    ¬ (run (step serdeRecord "c") fresh (onePage ++ [.disconnect])).AtLeastOnce serdeRecord "c" := by
  intro h
  have hrun : (run (step serdeRecord "c") fresh (onePage ++ [.disconnect])).db.events.length = 1 ∧
      (run (step serdeRecord "c") fresh (onePage ++ [.disconnect])).got = [] ∧
      (run (step serdeRecord "c") fresh (onePage ++ [.disconnect])).unread = [] ∧
      (run (step serdeRecord "c") fresh (onePage ++ [.disconnect])).resumePoint serdeRecord "c" = 1 := by
    rw [step_eq]
    decide +kernel
  obtain ⟨hone, hgot, hunread, hpoint⟩ := hrun
  obtain ⟨r, hr⟩ : ∃ r, (run (step serdeRecord "c") fresh (onePage ++ [.disconnect])).db.events[0]? = some r :=
    ⟨_, getElem?_eq_getElem (by rw [hone]; exact Nat.one_pos)⟩
  rcases h.kept 0 r hr with ⟨f, hf, -⟩ | ⟨f, hf, -⟩ | hpast
  · rw [hgot] at hf
    cases hf
  · rw [hunread] at hf
    cases hf
  · rw [hpoint] at hpast
    cases hpast

end World

end Daemon

end Modbit
