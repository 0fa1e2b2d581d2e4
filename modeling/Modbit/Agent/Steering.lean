import Modbit.EventStore.System
import Modbit.Lib.OrdMap
import Mathlib.Data.List.Pairwise
import Mathlib.Data.List.Sort
import Mathlib.Data.String.Basic

/-!
# Steering a run

A `SteerTask` request puts its note in the outbox of its task, and then executes its command: two
steps.  A run takes all notes of its task from the outbox at the boundary of a turn, and adds them
to the messages it sends; but it returns without sending them if it was stopped or paused.

A note is told apart by the number of its request.  A resumed run starts with the notes that are in
the checkpoint of an earlier one.  `steering_sound`: an accepted note is not lost, the notes reach
the model in the order they were accepted, and a rejected one does not, as long as no step loses,
leaks or repeats one.
-/

namespace Modbit

open Lib List

namespace Steering

structure Note where
  number : Nat
  taskId : String
  text : String
  deriving DecidableEq

structure RunSignal where
  taskId : String
  cancelled : Bool
  paused : Bool
  /-- The run has returned. -/
  ended : Bool
  /-- The notes in the conversation the run starts with, until its first request. -/
  carried : List Note

structure System where
  db : Db
  /-- How many requests there were. -/
  next : Nat
  outbox : OrdMap String (List Note)
  /-- Notes whose command is still to be executed. -/
  pending : List Note
  accepted : List Note
  rejected : List Note
  /-- The signals of all runs. -/
  signals : List RunSignal
  runs : OrdMap String Nat
  /-- The notes in the last checkpoint of each task. -/
  saved : OrdMap String (List Note)
  /-- The notes that were sent to the model, with the run. -/
  delivered : List (Nat × Note)
  /-- The notes taken by a run that returned with them. -/
  dropped : List Note

inductive Event where
  /-- A call on the store that is not of a `SteerTask`. -/
  | op (op : Op)
  | steer (taskId note : String)
  /-- The command of a request; a task id that is not one is replaced by a new one. -/
  | command (i : Nat) (commandId : String) (generated : TaskId) (o : Oracle)
  | pause (taskId : String)
  | cancel (taskId : String)
  | register (taskId : String) (resumed : Bool)
  | boundary (run : Nat)
  | checkpoint (run : Nat)
  | finish (run : Nat)

/-! ### Steps -/

namespace System

def queueOf (s : System) (taskId : String) : List Note := (s.outbox.find? taskId).getD []

def sent (s : System) : List Note := s.delivered.map Prod.snd

/-- `RunControls::steer`. -/
def steer (s : System) (taskId note : String) : System :=
  let n : Note := ⟨s.next, taskId, note⟩
  { s with
    next := s.next + 1
    outbox := s.outbox.insert taskId (s.queueOf taskId ++ [n])
    pending := s.pending ++ [n] }

def steerCommand (n : Note) (commandId : String) (generated : TaskId) : Command :=
  ⟨commandId, ⟨.user, "desktop-main"⟩, .steerTask ((Id.parse n.taskId).getD generated) n.text⟩

def isAccepted : Except StoreError Outcome → Bool
  | .ok (.applied _) => true
  | .ok (.replayed _) => true
  | _ => false

def settle (s : System) (i : Nat) (n : Note) (out : Db × Except StoreError Outcome) : System :=
  if isAccepted out.2 then
    { s with db := out.1, pending := s.pending.eraseIdx i, accepted := s.accepted ++ [n] }
  else { s with db := out.1, pending := s.pending.eraseIdx i, rejected := s.rejected ++ [n] }

def command (s : System) (i : Nat) (commandId : String) (generated : TaskId) (o : Oracle) : System :=
  match s.pending[i]? with
  | none => s
  | some n => s.settle i n (execute s.db (steerCommand n commandId generated) o)

def signal (s : System) (taskId : String) (f : RunSignal → RunSignal) : System :=
  match s.runs.find? taskId with
  | none => s
  | some i => { s with signals := s.signals.modify i f }

/-- `RunControls::register`; only a resumed run reads the checkpoint. -/
def register (s : System) (taskId : String) (resumed : Bool) : System :=
  let carried := if resumed then (s.saved.find? taskId).getD [] else []
  { s with
    signals := s.signals ++ [⟨taskId, false, false, false, carried⟩]
    runs := s.runs.insert taskId s.signals.length }

/-- The boundary of a turn: `take_steer_notes`, then the two flags, then the request, which has all
messages of the conversation. -/
def boundary (s : System) (i : Nat) : System :=
  match s.signals[i]? with
  | none => s
  | some sig =>
    if sig.ended then s
    else
      let notes := s.queueOf sig.taskId
      let drained := { s with outbox := s.outbox.insert sig.taskId [] }
      if sig.cancelled || sig.paused then
        { drained with
          signals := s.signals.modify i (fun sig => { sig with ended := true })
          dropped := s.dropped ++ notes }
      else
        { drained with
          signals := s.signals.modify i (fun sig => { sig with carried := [] })
          delivered := s.delivered ++ (sig.carried ++ notes).map (fun n => (i, n)) }

/-- The conversation of the run, with all notes it has sent. -/
def checkpoint (s : System) (i : Nat) : System :=
  match s.signals[i]? with
  | none => s
  | some sig =>
    let held := (s.delivered.filter (fun d => d.1 = i)).map Prod.snd
    { s with saved := s.saved.insert sig.taskId held }

def finish (s : System) (i : Nat) : System :=
  match s.signals[i]? with
  | none => s
  | some sig =>
    { s with
      signals := s.signals.modify i (fun sig => { sig with ended := true })
      runs := s.runs.erase sig.taskId }

end System

def step (s : System) : Event → System × Unit
  | .op op => ({ s with db := (Modbit.step s.db op).1 }, ())
  | .steer taskId note => (s.steer taskId note, ())
  | .command i commandId generated o => (s.command i commandId generated o, ())
  | .pause taskId => (s.signal taskId (fun sig => { sig with paused := true }), ())
  | .cancel taskId => (s.signal taskId (fun sig => { sig with cancelled := true }), ())
  | .register taskId resumed => (s.register taskId resumed, ())
  | .boundary i => (s.boundary i, ())
  | .checkpoint i => (s.checkpoint i, ())
  | .finish i => (s.finish i, ())

def start (db : Db) : System := ⟨db, 0, .empty, [], [], [], [], .empty, .empty, [], []⟩

/-! ### What is to hold -/

def Queued (s : System) (n : Note) : Prop := ∃ taskId, n ∈ s.queueOf taskId

/-- An accepted note is in the outbox or was sent by exactly one run, the accepted notes of a task
were sent in the order they were accepted, and no rejected note was sent. -/
structure Sound (s : System) : Prop where
  kept : ∀ n ∈ s.accepted, (Queued s n ∧ ∀ i, (i, n) ∉ s.delivered)
    ∨ (¬ Queued s n ∧ ∃! i, (i, n) ∈ s.delivered)
  ordered : ∀ taskId, (s.sent.filter (fun n => n.taskId = taskId ∧ n ∈ s.accepted)).Sublist s.accepted
  refused : ∀ n ∈ s.rejected, ∀ i, (i, n) ∉ s.delivered

/-- A boundary of a stopped or paused run finds no accepted note, and one of another run no rejected
note and none that an earlier run has sent.  A command that is accepted is of a note that was not dropped, and comes after those of the
earlier notes of the task that are accepted; one that is rejected is of a note that was not sent. -/
def Clear (s : System) : Event → Prop
  | .boundary i => ∀ sig ∈ s.signals[i]?, sig.ended = false →
      if sig.cancelled || sig.paused then ∀ n ∈ s.queueOf sig.taskId, n ∉ s.accepted
      else sig.carried = [] ∧ ∀ n ∈ s.queueOf sig.taskId, n ∉ s.rejected
  | .command i commandId generated o => ∀ n ∈ s.pending[i]?,
      if System.isAccepted (execute s.db (System.steerCommand n commandId generated) o).2 then
        n ∉ s.dropped ∧ ∀ m ∈ s.accepted, m.taskId = n.taskId → m.number < n.number
      else n ∉ s.sent
  | _ => True

/-! ### What a step keeps -/

def Ascending (notes : List Note) : Prop := notes.Pairwise (fun m n => m.number < n.number)

structure Good (s : System) : Prop where
  queue : ∀ taskId, Ascending (s.queueOf taskId) ∧ ∀ n ∈ s.queueOf taskId, n.taskId = taskId
  /-- What was taken from a queue came before what is in it. -/
  taken : ∀ m ∈ s.sent ++ s.dropped, ∀ n ∈ s.queueOf m.taskId, m.number < n.number
  sent : ∀ taskId, Ascending (s.sent.filter (fun n => n.taskId = taskId))
  accepted : ∀ taskId, Ascending (s.accepted.filter (fun n => n.taskId = taskId))
  kept : ∀ n ∈ s.accepted, n ∈ s.queueOf n.taskId ∨ n ∈ s.sent
  refused : ∀ n ∈ s.rejected, n ∉ s.sent
  pending : ∀ n ∈ s.pending, n ∈ s.queueOf n.taskId ∨ n ∈ s.sent ∨ n ∈ s.dropped
  bounded : ∀ n ∈ s.sent ++ s.dropped, n.number < s.next
  queued : ∀ taskId, ∀ n ∈ s.queueOf taskId, n.number < s.next

variable {s : System} {n : Note} {taskId : String}

theorem queueOf_insert (s : System) (taskId : String) (notes : List Note) (k : String) :
    ({ s with outbox := s.outbox.insert taskId notes } : System).queueOf k
      = if k = taskId then notes else s.queueOf k := by
  rw [System.queueOf, OrdMap.find?_insert]
  split_ifs with h
  · rfl
  · rfl

theorem mem_queueOf (h : n ∈ s.queueOf taskId) :
    ∃ notes, s.outbox.find? taskId = some notes ∧ n ∈ notes := by
  rw [System.queueOf] at h
  cases hf : s.outbox.find? taskId with
  | none =>
    rw [hf] at h
    cases h
  | some notes =>
    rw [hf] at h
    exact ⟨notes, rfl, h⟩

theorem good_steer (h : Good s) (taskId note : String) : Good (s.steer taskId note) := by
  have hqueue : ∀ k, (s.steer taskId note).queueOf k
      = if k = taskId then s.queueOf taskId ++ [⟨s.next, taskId, note⟩] else s.queueOf k :=
    fun k => queueOf_insert s taskId _ k
  have hgrows : ∀ k, ∀ n ∈ s.queueOf k, n ∈ (s.steer taskId note).queueOf k := by
    intro k n hn
    rw [hqueue]
    split_ifs with hk
    · subst hk
      exact mem_append_left _ hn
    · exact hn
  have hmem : ∀ k, ∀ n ∈ (s.steer taskId note).queueOf k,
      n ∈ s.queueOf k ∨ n = ⟨s.next, taskId, note⟩ ∧ k = taskId := by
    intro k n hn
    rw [hqueue] at hn
    split_ifs at hn with hk
    · subst hk
      rcases mem_append.mp hn with hold | hnew
      · exact .inl hold
      · exact .inr ⟨mem_singleton.mp hnew, rfl⟩
    · exact .inl hn
  refine ⟨fun k => ⟨?_, fun n hn => ?_⟩, fun m hm n hn => ?_, h.sent, h.accepted, fun n hn => ?_,
    h.refused, fun n hn => ?_, fun n hn => ?_, fun k n hn => ?_⟩
  · rw [hqueue]
    split_ifs with hk
    · refine pairwise_append.mpr ⟨(h.queue taskId).1, pairwise_singleton _ _, ?_⟩
      intro m hm n hn
      rw [mem_singleton.mp hn]
      exact h.queued taskId m hm
    · exact (h.queue k).1
  · rcases hmem k n hn with hold | ⟨rfl, hk⟩
    · exact (h.queue k).2 n hold
    · exact hk.symm
  · rcases hmem _ n hn with hold | ⟨rfl, -⟩
    · exact h.taken m hm n hold
    · exact h.bounded m hm
  · exact (h.kept n hn).imp_left (hgrows _ n)
  · rcases mem_append.mp hn with hold | hnew
    · exact (h.pending n hold).imp_left (hgrows _ n)
    · rw [mem_singleton.mp hnew]
      refine .inl ?_
      rw [hqueue, if_pos rfl]
      exact mem_append_right _ mem_cons_self
  · exact Nat.lt_succ_of_lt (h.bounded n hn)
  · rcases hmem k n hn with hold | ⟨rfl, -⟩
    · exact Nat.lt_succ_of_lt (h.queued k n hold)
    · exact Nat.lt_succ_self _

variable {i : Nat}

theorem good_command (h : Good s) {commandId : String} {generated : TaskId} {o : Oracle}
    (hok : Clear s (.command i commandId generated o)) : Good (s.command i commandId generated o) := by
  rw [System.command]
  cases hi : s.pending[i]? with
  | none => exact h
  | some n =>
    have hn := hok n hi
    have hrest : ∀ m ∈ s.pending.eraseIdx i, m ∈ s.queueOf m.taskId ∨ m ∈ s.sent ∨ m ∈ s.dropped :=
      fun m hm => h.pending m (mem_of_mem_eraseIdx hm)
    dsimp only [System.settle]
    split_ifs at hn ⊢ with haccepted
    · obtain ⟨hdropped, hlast⟩ := hn
      refine ⟨h.queue, h.taken, h.sent, fun k => ?_, ?_, h.refused, hrest, h.bounded, h.queued⟩
      · rw [filter_append]
        refine pairwise_append.mpr ⟨h.accepted k, (pairwise_singleton _ _).filter _, ?_⟩
        intro m hm m' hm'
        obtain ⟨hmem, hk⟩ := mem_filter.mp hm
        obtain ⟨hself, hk'⟩ := mem_filter.mp hm'
        rw [mem_singleton.mp hself] at hk' ⊢
        exact hlast m hmem ((of_decide_eq_true hk).trans (of_decide_eq_true hk').symm)
      · refine forall_mem_append.mpr ⟨h.kept, forall_mem_singleton.mpr ?_⟩
        rcases h.pending n (mem_of_getElem? hi) with hq | hs | hd
        · exact .inl hq
        · exact .inr hs
        · exact absurd hd hdropped
    · exact ⟨h.queue, h.taken, h.sent, h.accepted, h.kept,
        forall_mem_append.mpr ⟨h.refused, forall_mem_singleton.mpr hn⟩, hrest, h.bounded,
        h.queued⟩

variable {taken k : String}

theorem mem_drained (hn : n ∈ ({ s with outbox := s.outbox.insert taken [] } : System).queueOf k) :
    k ≠ taken ∧ n ∈ s.queueOf k := by
  rw [queueOf_insert] at hn
  split_ifs at hn with hk
  · cases hn
  · exact ⟨hk, hn⟩

theorem drained_or (taken : String) (hn : n ∈ s.queueOf k) :
    n ∈ ({ s with outbox := s.outbox.insert taken [] } : System).queueOf k ∨ n ∈ s.queueOf taken := by
  rw [queueOf_insert]
  split_ifs with hk
  · exact .inr (hk ▸ hn)
  · exact .inl hn

theorem good_dropped (h : Good s) (hclear : ∀ n ∈ s.queueOf taken, n ∉ s.accepted) : Good { s with
      outbox := s.outbox.insert taken []
      dropped := s.dropped ++ s.queueOf taken } := by
  have hqueue : ∀ k, ∀ n ∈ ({ s with
      outbox := s.outbox.insert taken []
      dropped := s.dropped ++ s.queueOf taken } : System).queueOf k, k ≠ taken ∧ n ∈ s.queueOf k :=
    fun k n hn => mem_drained hn
  refine ⟨fun k => ⟨?_, fun n hn => (h.queue k).2 n (hqueue k n hn).2⟩, fun m hm n hn => ?_, h.sent,
    h.accepted, fun n hn => ?_, h.refused, fun n hn => ?_, fun n hn => ?_,
    fun k n hn => h.queued k n (hqueue k n hn).2⟩
  · have hqueue' := queueOf_insert s taken [] k
    show Ascending (({ s with outbox := s.outbox.insert taken [] } : System).queueOf k)
    rw [hqueue']
    split_ifs
    · exact List.Pairwise.nil
    · exact (h.queue k).1
  · obtain ⟨hother, hmem⟩ := hqueue _ n hn
    rcases mem_append.mp hm with hsent | hdropped
    · exact h.taken m (mem_append_left _ hsent) n hmem
    · rcases mem_append.mp hdropped with hold | hnew
      · exact h.taken m (mem_append_right _ hold) n hmem
      · exact absurd ((h.queue taken).2 m hnew) hother
  · rcases h.kept n hn with hq | hs
    · rcases drained_or taken hq with hleft | htaken
      · exact .inl hleft
      · exact absurd hn (hclear n htaken)
    · exact .inr hs
  · rcases h.pending n hn with hq | hs | hd
    · rcases drained_or taken hq with hleft | htaken
      · exact .inl hleft
      · exact .inr (.inr (mem_append_right _ htaken))
    · exact .inr (.inl hs)
    · exact .inr (.inr (mem_append_left _ hd))
  · rcases mem_append.mp hn with hsent | hdropped
    · exact h.bounded n (mem_append_left _ hsent)
    · rcases mem_append.mp hdropped with hold | hnew
      · exact h.bounded n (mem_append_right _ hold)
      · exact h.queued taken n hnew

theorem good_sent (h : Good s) (i : Nat) (hclear : ∀ n ∈ s.queueOf taken, n ∉ s.rejected) :
    Good { s with
      outbox := s.outbox.insert taken []
      delivered := s.delivered ++ (s.queueOf taken).map (fun n => (i, n)) } := by
  have hqueue : ∀ k, ∀ n ∈ ({ s with
      outbox := s.outbox.insert taken []
      delivered := s.delivered ++ (s.queueOf taken).map (fun n => (i, n)) } : System).queueOf k,
      k ≠ taken ∧ n ∈ s.queueOf k := fun k n hn => mem_drained hn
  have hsent : ({ s with
      outbox := s.outbox.insert taken []
      delivered := s.delivered ++ (s.queueOf taken).map (fun n => (i, n)) } : System).sent
        = s.sent ++ s.queueOf taken := by
    show (s.delivered ++ (s.queueOf taken).map (fun n => (i, n))).map Prod.snd = _
    rw [map_append, map_map]
    exact congrArg (s.sent ++ ·) (map_id _)
  refine ⟨fun k => ⟨?_, fun n hn => (h.queue k).2 n (hqueue k n hn).2⟩, ?_, fun k => ?_, h.accepted,
    ?_, ?_, ?_, ?_, fun k n hn => h.queued k n (hqueue k n hn).2⟩
  · have hqueue' := queueOf_insert s taken [] k
    show Ascending (({ s with outbox := s.outbox.insert taken [] } : System).queueOf k)
    rw [hqueue']
    split_ifs
    · exact List.Pairwise.nil
    · exact (h.queue k).1
  · rw [hsent]
    intro m hm n hn
    obtain ⟨hother, hmem⟩ := hqueue _ n hn
    rw [append_assoc, mem_append, mem_append] at hm
    rcases hm with hold | hnew | hdropped
    · exact h.taken m (mem_append_left _ hold) n hmem
    · exact absurd ((h.queue taken).2 m hnew) hother
    · exact h.taken m (mem_append_right _ hdropped) n hmem
  · rw [hsent, filter_append]
    refine pairwise_append.mpr ⟨h.sent k, (h.queue taken).1.filter _, ?_⟩
    intro m hm n hn
    obtain ⟨hmem, hk⟩ := mem_filter.mp hm
    obtain ⟨hmem', hk'⟩ := mem_filter.mp hn
    have hsame : m.taskId = taken := by
      rw [of_decide_eq_true hk, ← of_decide_eq_true hk']
      exact (h.queue taken).2 n hmem'
    exact h.taken m (mem_append_left _ hmem) n (hsame ▸ hmem')
  · rw [hsent]
    intro n hn
    rcases h.kept n hn with hq | hs
    · exact (drained_or taken hq).imp_right (mem_append_right _)
    · exact .inr (mem_append_left _ hs)
  · rw [hsent]
    intro n hn hmem
    rcases mem_append.mp hmem with hold | hnew
    · exact h.refused n hn hold
    · exact hclear n hnew hn
  · rw [hsent]
    intro n hn
    rcases h.pending n hn with hq | hs | hd
    · rcases drained_or taken hq with hleft | htaken
      · exact .inl hleft
      · exact .inr (.inl (mem_append_right _ htaken))
    · exact .inr (.inl (mem_append_left _ hs))
    · exact .inr (.inr hd)
  · rw [hsent]
    intro n hn
    rw [append_assoc, mem_append, mem_append] at hn
    rcases hn with hold | hnew | hdropped
    · exact h.bounded n (mem_append_left _ hold)
    · exact h.queued taken n hnew
    · exact h.bounded n (mem_append_right _ hdropped)

theorem Good.frame (h : Good s) (db : Db) (signals : List RunSignal) (runs : OrdMap String Nat)
    (saved : OrdMap String (List Note)) :
    Good { s with db := db, signals := signals, runs := runs, saved := saved } :=
  ⟨h.queue, h.taken, h.sent, h.accepted, h.kept, h.refused, h.pending, h.bounded, h.queued⟩

theorem good_boundary (h : Good s) (hok : Clear s (.boundary i)) : Good (s.boundary i) := by
  rw [System.boundary]
  cases hi : s.signals[i]? with
  | none => exact h
  | some sig =>
    dsimp only
    split_ifs with hended hstopped
    · exact h
    · have hclear := hok sig hi (Bool.eq_false_iff.mpr hended)
      rw [if_pos hstopped] at hclear
      exact (good_dropped h hclear).frame s.db _ s.runs s.saved
    · have hclear := hok sig hi (Bool.eq_false_iff.mpr hended)
      rw [if_neg hstopped] at hclear
      obtain ⟨hcarried, hclear⟩ := hclear
      rw [hcarried, nil_append]
      exact (good_sent h i hclear).frame s.db _ s.runs s.saved

theorem good_signal (h : Good s) (taskId : String) (f : RunSignal → RunSignal) :
    Good (s.signal taskId f) := by
  rw [System.signal]
  cases s.runs.find? taskId with
  | none => exact h
  | some i => exact h.frame s.db _ s.runs s.saved

/-- **What a step keeps.** -/
theorem good_step (ev : Event) (h : Good s) (hok : Clear s ev) : Good (step s ev).1 := by
  cases ev with
  | op op => exact h.frame _ s.signals s.runs s.saved
  | steer taskId note => exact good_steer h taskId note
  | command i commandId generated o => exact good_command h hok
  | pause taskId => exact good_signal h taskId _
  | cancel taskId => exact good_signal h taskId _
  | register taskId resumed => exact h.frame s.db _ _ s.saved
  | boundary i => exact good_boundary h hok
  | checkpoint i =>
    rw [step, System.checkpoint]
    cases s.signals[i]? with
    | none => exact h
    | some sig => exact h.frame s.db s.signals s.runs _
  | finish i =>
    rw [step, System.finish]
    cases s.signals[i]? with
    | none => exact h
    | some sig => exact h.frame s.db _ _ s.saved

/-! ### Whole runs -/

theorem good_start (db : Db) : Good (start db) := by
  have hqueue : ∀ taskId, (start db).queueOf taskId = [] := fun _ => rfl
  refine ⟨fun taskId => ⟨List.Pairwise.nil, ?_⟩, ?_, fun _ => List.Pairwise.nil,
    fun _ => List.Pairwise.nil, ?_, ?_, ?_, ?_, fun taskId n hn => ?_⟩
  · rw [hqueue]
    exact forall_mem_nil _
  · exact forall_mem_nil _
  · exact forall_mem_nil _
  · exact forall_mem_nil _
  · exact forall_mem_nil _
  · exact forall_mem_nil _
  · rw [hqueue] at hn
    cases hn

theorem Good.sender_unique (h : Good s) {i j : Nat} (hi : (i, n) ∈ s.delivered)
    (hj : (j, n) ∈ s.delivered) : j = i := by
  have hsent := h.sent n.taskId
  rw [System.sent, filter_map] at hsent
  have hapart : (s.delivered.filter ((fun m : Note => decide (m.taskId = n.taskId)) ∘ Prod.snd)).Pairwise
      (fun a b => a.2.number ≠ b.2.number) :=
    (pairwise_map.mp hsent).imp (fun hlt => Nat.ne_of_lt hlt)
  have hmem : ∀ k, (k, n) ∈ s.delivered →
      (k, n) ∈ s.delivered.filter ((fun m : Note => decide (m.taskId = n.taskId)) ∘ Prod.snd) :=
    fun k hk => mem_filter.mpr ⟨hk, decide_eq_true rfl⟩
  by_contra hne
  have hne' : (j, n) ≠ (i, n) := fun heq => hne (congrArg Prod.fst heq)
  have : Std.Symm (fun a b : Nat × Note => a.2.number ≠ b.2.number) := ⟨fun _ _ hab => hab.symm⟩
  exact hapart.forall (hmem j hj) (hmem i hi) hne' rfl

theorem Good.unsent (h : Good s) (hq : n ∈ s.queueOf k) : n ∉ s.sent := by
  intro hsent
  have hk : n.taskId = k := (h.queue k).2 n hq
  exact Nat.lt_irrefl _ (h.taken n (mem_append_left _ hsent) n (hk ▸ hq))

theorem mem_sent (h : (i, n) ∈ s.delivered) : n ∈ s.sent := mem_map_of_mem h

theorem sound_of_good (h : Good s) : Sound s := by
  refine ⟨fun n hn => ?_, fun k => ?_, fun n hn i hi => h.refused n hn (mem_sent hi)⟩
  · rcases h.kept n hn with hq | hs
    · exact .inl ⟨⟨_, hq⟩, fun i hi => h.unsent hq (mem_sent hi)⟩
    · obtain ⟨d, hd, rfl⟩ := mem_map.mp hs
      exact .inr ⟨fun ⟨k, hq⟩ => h.unsent hq hs, d.1, hd, fun j hj => h.sender_unique hd hj⟩
  · -- Both lists are in the order of the requests, and one has no note the other has not.
    have hsub : (s.sent.filter (fun n => n.taskId = k ∧ n ∈ s.accepted))
        ⊆ s.accepted.filter (fun n => n.taskId = k) := by
      intro n hn
      obtain ⟨hk, hacc⟩ := of_decide_eq_true (mem_filter.mp hn).2
      exact mem_filter.mpr ⟨hacc, decide_eq_true hk⟩
    have hsent : Ascending (s.sent.filter (fun n => n.taskId = k ∧ n ∈ s.accepted)) := by
      refine (h.sent k).sublist (monotone_filter_right _ ?_)
      intro n hn
      exact decide_eq_true (of_decide_eq_true hn).1
    have : Std.Antisymm (fun m n : Note => m.number < n.number) :=
      ⟨fun m n hlt hgt => absurd hlt (Nat.lt_asymm hgt)⟩
    have hnodup : (s.sent.filter (fun n => n.taskId = k ∧ n ∈ s.accepted)).Nodup :=
      hsent.imp (fun hlt heq => absurd (congrArg Note.number heq) (Nat.ne_of_lt hlt))
    exact (sublist_of_subperm_of_pairwise (subperm_of_subset hnodup hsub) hsent
      (h.accepted k)).trans filter_sublist

/-- **Steering.**  In every run of requests, signals, turn boundaries, checkpoints and store calls
whose steps are clear, the notes are sound. -/
theorem steering_sound (ops : List Op) (evs : List Event)
    (h : Admits step Clear (start (Db.after ops)) evs) :
    Sound (run step (start (Db.after ops)) evs) := by
  have hgood : Good (run step (start (Db.after ops)) evs) :=
    (path_of_admits evs h).invariant (good_start _) (fun s ev hs hok => good_step ev hs hok)
  exact sound_of_good hgood

/-! ### A note that is sent, and two that are not as they should be -/

def evalStep (s : System) : Event → System × Unit
  | .command i commandId generated o =>
    match s.pending[i]? with
    | none => (s, ())
    | some n => (s.settle i n (evalCall s.db (System.steerCommand n commandId generated, o)), ())
  | ev => step s ev

theorem step_eq_evalStep : step = evalStep := by
  funext s ev
  cases ev with
  | command i commandId generated o =>
    rw [step, evalStep, System.command]
    split
    · rfl
    · rw [execute_eq_evalCall]
  | _ => rfl

def startedTask : List Call :=
  sampleCalls [.createSession "s", .createTask ⟨.ofNat 0⟩ "title" "prompt" none none none,
    .queueTask ⟨.ofNat 3⟩, .startTask ⟨.ofNat 3⟩]

def sampleTask : String := (⟨.ofNat 3⟩ : TaskId).toText

def sampleCommand (i : Nat) : Event := .command i "steer" ⟨.ofNat 90⟩ (sampleOracle 40)

def sentRun : List Event :=
  [.steer sampleTask "note", sampleCommand 0, .register sampleTask false, .boundary 0]

theorem steering_sound_sentRun :
    (run step (start (Db.after (startedTask.map Call.op))) sentRun).sent
        = [⟨0, sampleTask, "note"⟩] ∧
      Sound (run step (start (Db.after (startedTask.map Call.op))) sentRun) := by
  obtain ⟨hsent, hok⟩ : (run step (start (Db.after (startedTask.map Call.op))) sentRun).sent
        = [⟨0, sampleTask, "note"⟩] ∧
      Admits step Clear (start (Db.after (startedTask.map Call.op))) sentRun := by
    rw [← afterCalls_eq, afterCalls_eval, step_eq_evalStep]
    simp only [sentRun, sampleCommand, Admits, Clear, execute_eq_evalCall]
    decide +kernel
  exact ⟨hsent, steering_sound _ _ hok⟩

/-- The run is paused after the command of the note was accepted. -/
def pausedRun : List Event :=
  [.register sampleTask false, .steer sampleTask "note", sampleCommand 0, .pause sampleTask,
    .boundary 0]

/-- The note of a task that is not running is queued, its command is rejected, and the task's run
sends it. -/
def rejectedRun : List Event :=
  [.steer sampleTask "note", sampleCommand 0, .register sampleTask false, .boundary 0]

/-- An accepted note is lost, and a rejected one reaches the model. -/
theorem steering_unsound :
    ¬ Sound (run step (start (Db.after (startedTask.map Call.op))) pausedRun) ∧
      ¬ Sound (run step (start (Db.after ((startedTask.take 3).map Call.op))) rejectedRun) := by
  rw [← afterCalls_eq, ← afterCalls_eq, afterCalls_eval, afterCalls_eval, step_eq_evalStep]
  constructor
  · intro h
    obtain ⟨hsent, hqueues, haccepted⟩ :
        (run evalStep (start (run evalCall .empty startedTask)) pausedRun).delivered = []
        ∧ (∀ e ∈ (run evalStep (start (run evalCall .empty startedTask)) pausedRun).outbox.entries,
          e.2 = [])
        ∧ ⟨0, sampleTask, "note"⟩
          ∈ (run evalStep (start (run evalCall .empty startedTask)) pausedRun).accepted := by
      decide +kernel
    rcases h.kept _ haccepted with ⟨⟨k, hq⟩, -⟩ | ⟨-, i, hi, -⟩
    · obtain ⟨notes, hnotes, hmem⟩ := mem_queueOf hq
      have hempty : notes = [] := hqueues _ (OrdMap.mem_entries.mpr hnotes)
      rw [hempty] at hmem
      cases hmem
    · rw [hsent] at hi
      cases hi
  · intro h
    have hsent : (⟨0, sampleTask, "note"⟩ : Note)
          ∈ (run evalStep (start (run evalCall .empty (startedTask.take 3))) rejectedRun).rejected
        ∧ (0, ⟨0, sampleTask, "note"⟩)
          ∈ (run evalStep (start (run evalCall .empty (startedTask.take 3))) rejectedRun).delivered := by
      decide +kernel
    exact h.refused _ hsent.1 0 hsent.2

end Steering

end Modbit
