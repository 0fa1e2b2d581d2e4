import Modbit.Agent.Conversation
import Modbit.Agent.RunPlane
import Modbit.Agent.Scheduler

/-!
# Resuming from a checkpoint

A task that was interrupted is resumed from the checkpoint with the highest sequence number
among those of its runs.  Sequence numbers count the events of one run, so the checkpoint of
an earlier run with more events may be taken for the newest.  `resumes_last_iff` says when
the one that is taken is the one that was written last.
-/

namespace Modbit

open Lib List

namespace Agent

open Compaction (ChatMessage)

/-! ### What is loaded -/

/-- `json_extract(payload_inline, '$.…')`, of a text. -/
def payloadText (name : String) (r : EventRow) : Option String :=
  (r.payloadInline.field name).bind Json.asStr

/-- The runs of a task, from their `run_started` events. -/
def runsOf (db : Db) (taskId : TaskId) : List String :=
  (db.events.filter (fun r => r.eventType = "run_started"
    && payloadText "task_id" r = some taskId.toText)).map EventRow.aggregateId

/-- The checkpoints of a task, in the order they were committed. -/
def checkpointsOf (db : Db) (taskId : TaskId) : List EventRow :=
  db.events.filter (fun r => r.eventType = "conversation_checkpointed"
    && r.aggregateId ∈ runsOf db taskId)

/-- A row that no other comes before in the order. -/
def Newest (rows : List EventRow) (r : EventRow) : Prop :=
  r ∈ rows ∧ ∀ r' ∈ rows, r'.sequence ≤ r.sequence

/-- `ORDER BY sequence DESC LIMIT 1`: of several rows with the highest number it may be any. -/
def Selected (rows : List EventRow) : Option EventRow → Prop
  | none => rows = []
  | some r => Newest rows r

section Load

-- `serde_json::from_str`
variable (fromText : String → Option (List ChatMessage))

def loadLatestCheckpoint (row : Option EventRow) : Option (List ChatMessage) :=
  (row.bind (payloadText "conversation_json")).bind fromText

/-- What `resume_task` starts the run with. -/
def resumeTask (row : Option EventRow) : Option (List ChatMessage) :=
  some ((loadLatestCheckpoint fromText row).getD [])

/-- The row is the checkpoint of a conversation with something in it, and reads back. -/
structure Records (r : EventRow) (c : List ChatMessage) : Prop where
  nonempty : c ≠ []
  written : ∃ n, r.payloadInline = (DomainEvent.conversationCheckpointed n (conversationText c)).toJson
  reads : fromText (conversationText c) = some c

/-- The checkpoints in a log are those that runs write. -/
def Recorded (db : Db) : Prop :=
  ∀ r ∈ db.events, r.eventType = "conversation_checkpointed" → ∃ c, Records fromText r c

/-- The run goes on from the checkpoint committed last, and starts from the prompt only if there is
none. -/
structure Resumes (db : Db) (taskId : TaskId) (compiled : String) (row : Option EventRow) : Prop where
  continues : ∀ last ∈ (checkpointsOf db taskId).getLast?, ∀ c, Records fromText last c →
    startConversation compiled (resumeTask fromText row) = c ++ [userMessage interruptionNote]
  fresh : restored (resumeTask fromText row) = none → checkpointsOf db taskId = []

end Load

/-! ### When it is the last one -/

variable {W : Type} {fromText : String → Option (List ChatMessage)} {db : Db} {taskId : TaskId} {r r' : EventRow}
  {c c' : List ChatMessage}

theorem Records.text (h : Records fromText r c) :
    payloadText "conversation_json" r = some (conversationText c) := by
  obtain ⟨n, hr⟩ := h.written
  rw [payloadText, hr]
  rfl

theorem records_of_run (l : Loop W) (w : W) (compiled : String) {resume : Option (List ChatMessage)}
    (h : ∀ c ∈ resume, Compaction.Paired c) {e : DomainEvent}
    (he : e ∈ (l.run w compiled resume).2.1.checkpoints) (hr : r.payloadInline = e.toJson)
    (hserde : ∀ c, fromText (conversationText c) = some c) : ∃ c, Records fromText r c := by
  obtain ⟨n, c, hc, -, hwritten⟩ := (l.run_delivered w compiled h).checkpoints e he
  rw [checkpoint] at hwritten
  split_ifs at hwritten with hsize
  exact ⟨c, hc, ⟨n, by rw [hr, ← Option.some.inj hwritten]⟩, hserde c⟩

theorem Records.resume (h : Records fromText r c) : resumeTask fromText (some r) = some c := by
  rw [resumeTask, loadLatestCheckpoint, Option.bind_some, h.text, Option.bind_some, h.reads]
  rfl

theorem Records.restored (h : Records fromText r c) :
    restored (resumeTask fromText (some r)) = some c := by
  rw [h.resume]
  cases c with
  | nil => exact absurd rfl h.nonempty
  | cons m rest => rfl

theorem Records.start (h : Records fromText r c) (compiled : String) :
    startConversation compiled (resumeTask fromText (some r)) = c ++ [userMessage interruptionNote] := by
  rw [startConversation, h.restored, h.resume]
  rfl

theorem Records.eq_iff (h : Records fromText r c) (h' : Records fromText r' c') :
    payloadText "conversation_json" r = payloadText "conversation_json" r' ↔ c = c' := by
  rw [h.text, h'.text]
  constructor
  · intro heq
    have hread := h.reads
    rw [Option.some.inj heq, h'.reads] at hread
    exact (Option.some.inj hread).symm
  · intro heq
    rw [heq]

theorem Recorded.of_mem (h : Recorded fromText db) (hr : r ∈ checkpointsOf db taskId) :
    ∃ c, Records fromText r c := by
  obtain ⟨hmem, hkind⟩ := mem_filter.mp hr
  rw [Bool.and_eq_true, decide_eq_true_eq] at hkind
  exact h r hmem hkind.1

/-- **A task is resumed from its last checkpoint exactly if those with the highest sequence number
are of the same conversation as the one committed last.** -/
theorem resumes_last_iff (fromText : String → Option (List ChatMessage)) (db : Db) (taskId : TaskId)
    (compiled : String) (h : Recorded fromText db) :
    (∀ row, Selected (checkpointsOf db taskId) row → Resumes fromText db taskId compiled row) ↔
      ∀ last ∈ (checkpointsOf db taskId).getLast?, ∀ r, Newest (checkpointsOf db taskId) r →
        payloadText "conversation_json" r = payloadText "conversation_json" last := by
  constructor
  · intro hresumes last hlast r hr
    obtain ⟨c, hc⟩ := h.of_mem hr.1
    obtain ⟨c', hc'⟩ := h.of_mem (mem_of_getLast? hlast)
    have hstart := (hresumes (some r) hr).continues last hlast c' hc'
    rw [hc.start] at hstart
    exact (hc.eq_iff hc').mpr (append_cancel_right hstart)
  · intro hsame row hrow
    cases row with
    | none =>
      have hnil : checkpointsOf db taskId = [] := hrow
      refine ⟨fun last hlast => ?_, fun _ => hnil⟩
      rw [hnil] at hlast
      cases hlast
    | some r =>
      obtain ⟨c, hc⟩ := h.of_mem hrow.1
      refine ⟨fun last hlast c' hc' => ?_, fun hnone => ?_⟩
      · rw [hc.start, (hc.eq_iff hc').mp (hsame last hlast r hrow)]
      · rw [hc.restored] at hnone
        cases hnone

/-! ### Two attempts -/

/-- The events come one after another, each with the next number of its aggregate and a new id. -/
def Fits (rows : List EventRow) : List EventEnvelope → Prop
  | [] => True
  | e :: es => e.sequence = nextSeq EventRow.aggregateId EventRow.sequence e.aggregateId rows
      ∧ e.eventId ∉ rows.map EventRow.eventId ∧ Fits (rows ++ [e.storedRow]) es

theorem after_appends {es : List EventEnvelope} : ∀ (ops : List Op),
    (∀ e ∈ es, e.verifyIntegrity = true ∧ ∀ q, project q e = .ok q) → Fits (Db.after ops).events es →
    (Db.after (ops ++ es.map (fun e => .append [e]))).events
      = (Db.after ops).events ++ es.map EventEnvelope.storedRow := by
  induction es with
  | nil =>
    intro ops _ _
    rw [map_nil, append_nil, map_nil, append_nil]
  | cons e es ih =>
    intro ops hes hfits
    obtain ⟨⟨hv, hp⟩, hes'⟩ := forall_mem_cons.mp hes
    obtain ⟨hseq, hid, hrest⟩ := hfits
    have hnone : ∀ l ∈ (none : Option (SessionId × String)),
        Leases.isCurrent (Db.after ops) l.1.toText l.2 = true := fun l hl => (by cases hl)
    have happend := RunPlane.appendFenced_ok (after_gapless ops) hnone hseq hid hv hp
    have hstep : (step (Db.after ops) (.append [e])).1
        = (Db.after ops).extend e.storedRow (Db.after ops).projections := congrArg Prod.fst happend
    have hdb : (Db.after (ops ++ [.append [e]])).events
        = (Db.after ops).events ++ [e.storedRow] := by
      rw [after_concat, hstep]
      rfl
    rw [map_cons, append_cons, ih _ hes' (by rw [hdb]; exact hrest), hdb, append_assoc]
    rfl

def sampleTask : TaskId := ⟨.ofNat 9⟩

def sampleBlock (callId : String) : List ChatMessage :=
  [assistantWithToolCalls "" [⟨callId, "fs.read", "\x7b\x7d"⟩], toolResult callId "ok" false]

def firstTurn : List ChatMessage := userMessage "fix it" :: sampleBlock "a"

def secondTurn : List ChatMessage := firstTurn ++ sampleBlock "b"

/-- The turn of the attempt that resumed after the second. -/
def thirdTurn : List ChatMessage := secondTurn ++ userMessage interruptionNote :: sampleBlock "c"

def started (n : Nat) (runId : RunId) : EventEnvelope :=
  runStartedEnvelope (RunPlane.sampleStamp n) runId ⟨.ofNat 0⟩ sampleTask

def checkpointed (n : Nat) (runId : RunId) (sequence : Nat) (c : List ChatMessage) : EventEnvelope :=
  { RunPlane.observerEnvelope (RunPlane.sampleStamp n) ⟨.ofNat 0⟩ .run runId.toText (.ofNat 0)
      (.conversationCheckpointed 1 (conversationText c)) with sequence := sequence }.sealed

def oneAttempt : List EventEnvelope :=
  [started 1 ⟨.ofNat 1⟩, checkpointed 2 ⟨.ofNat 1⟩ 2 firstTurn, checkpointed 3 ⟨.ofNat 1⟩ 3 secondTurn]

def twoAttempts : List EventEnvelope :=
  oneAttempt ++ [started 4 ⟨.ofNat 2⟩, checkpointed 5 ⟨.ofNat 2⟩ 2 thirdTurn]

def sampleFromText (s : String) : Option (List ChatMessage) :=
  [firstTurn, secondTurn, thirdTurn].find? (fun c => conversationText c = s)

def logOf (es : List EventEnvelope) : Db := Db.after (es.map (fun e => .append [e]))

theorem mem_started (n : Nat) (runId : RunId) :
    (started n runId).verifyIntegrity = true ∧ ∀ q, project q (started n runId) = .ok q :=
  ⟨EventEnvelope.verifyIntegrity_sealed _, fun _ => rfl⟩

theorem mem_checkpointed (n : Nat) (runId : RunId) (sequence : Nat) (c : List ChatMessage) :
    (checkpointed n runId sequence c).verifyIntegrity = true
      ∧ ∀ q, project q (checkpointed n runId sequence c) = .ok q :=
  ⟨EventEnvelope.verifyIntegrity_sealed _, fun _ => rfl⟩

theorem records_checkpointed (n : Nat) (runId : RunId) (sequence : Nat) (hc : c ≠ [])
    (hreads : fromText (conversationText c) = some c) :
    Records fromText (checkpointed n runId sequence c).storedRow c := ⟨hc, ⟨1, rfl⟩, hreads⟩

theorem sample_reads : sampleFromText (conversationText firstTurn) = some firstTurn
    ∧ sampleFromText (conversationText secondTurn) = some secondTurn
    ∧ sampleFromText (conversationText thirdTurn) = some thirdTurn := by
  have h12 : conversationText firstTurn ≠ conversationText secondTurn := by decide +kernel
  have h13 : conversationText firstTurn ≠ conversationText thirdTurn := by decide +kernel
  have h23 : conversationText secondTurn ≠ conversationText thirdTurn := by decide +kernel
  refine ⟨?_, ?_, ?_⟩
  · simp [sampleFromText]
  · simp [sampleFromText, h12]
  · simp [sampleFromText, h13, h23]

theorem plain_twoAttempts :
    ∀ e ∈ twoAttempts, e.verifyIntegrity = true ∧ ∀ q, project q e = .ok q := by
  simp only [twoAttempts, oneAttempt, cons_append, nil_append, forall_mem_cons]
  exact ⟨mem_started _ _, mem_checkpointed _ _ _ _, mem_checkpointed _ _ _ _, mem_started _ _,
    mem_checkpointed _ _ _ _, fun e he => (by cases he)⟩

theorem events_oneAttempt : (logOf oneAttempt).events = oneAttempt.map EventEnvelope.storedRow := by
  have hfits : Fits [] oneAttempt := ⟨rfl, by decide, rfl, by decide, rfl, by decide, trivial⟩
  exact after_appends [] (fun e he => plain_twoAttempts e (mem_append_left _ he)) hfits

theorem events_twoAttempts : (logOf twoAttempts).events = twoAttempts.map EventEnvelope.storedRow := by
  have hfits : Fits [] twoAttempts :=
    ⟨rfl, by decide, rfl, by decide, rfl, by decide, rfl, by decide, rfl, by decide, trivial⟩
  exact after_appends [] plain_twoAttempts hfits

theorem recorded_oneAttempt : Recorded sampleFromText (logOf oneAttempt) := by
  rw [Recorded, events_oneAttempt]
  simp only [oneAttempt, map_cons, map_nil, forall_mem_cons]
  refine ⟨fun h => absurd h (by decide), fun _ => ?_, fun _ => ?_, fun r hr => (by cases hr)⟩
  · exact ⟨firstTurn, records_checkpointed _ _ _ (cons_ne_nil _ _) sample_reads.1⟩
  · exact ⟨secondTurn, records_checkpointed _ _ _ (cons_ne_nil _ _) sample_reads.2.1⟩

theorem checkpoints_oneAttempt : checkpointsOf (logOf oneAttempt) sampleTask
    = (oneAttempt.drop 1).map EventEnvelope.storedRow := by
  rw [checkpointsOf, runsOf, events_oneAttempt]
  rfl

theorem checkpoints_twoAttempts : checkpointsOf (logOf twoAttempts) sampleTask
    = [(checkpointed 2 ⟨.ofNat 1⟩ 2 firstTurn).storedRow,
      (checkpointed 3 ⟨.ofNat 1⟩ 3 secondTurn).storedRow,
      (checkpointed 5 ⟨.ofNat 2⟩ 2 thirdTurn).storedRow] := by
  rw [checkpointsOf, runsOf, events_twoAttempts]
  rfl

theorem resumes_last_iff_oneAttempt : Recorded sampleFromText (logOf oneAttempt)
    ∧ ∀ row, Selected (checkpointsOf (logOf oneAttempt) sampleTask) row →
      Resumes sampleFromText (logOf oneAttempt) sampleTask "fix it" row := by
  refine ⟨recorded_oneAttempt, (resumes_last_iff _ _ _ _ recorded_oneAttempt).mpr ?_⟩
  rw [checkpoints_oneAttempt]
  intro last hlast r hr
  rw [← Option.some.inj hlast]
  obtain ⟨hmem, hnewest⟩ := hr
  rcases mem_cons.mp hmem with rfl | hmem
  · exact absurd (hnewest _ (mem_cons_of_mem _ mem_cons_self)) (by decide)
  · rw [mem_singleton.mp hmem]
    rfl

/-- **The third attempt resumes from the first one's last turn**, though the second has taken
another turn since. -/
theorem resumes_older : Recorded sampleFromText (logOf twoAttempts)
    ∧ ¬ ∀ row, Selected (checkpointsOf (logOf twoAttempts) sampleTask) row →
      Resumes sampleFromText (logOf twoAttempts) sampleTask "fix it" row := by
  have hsecond : Records sampleFromText (checkpointed 3 ⟨.ofNat 1⟩ 3 secondTurn).storedRow secondTurn :=
    records_checkpointed _ _ _ (cons_ne_nil _ _) sample_reads.2.1
  have hthird : Records sampleFromText (checkpointed 5 ⟨.ofNat 2⟩ 2 thirdTurn).storedRow thirdTurn :=
    records_checkpointed _ _ _ (cons_ne_nil _ _) sample_reads.2.2
  refine ⟨?_, fun h => ?_⟩
  · rw [Recorded, events_twoAttempts]
    simp only [twoAttempts, oneAttempt, cons_append, nil_append, map_cons, map_nil, forall_mem_cons]
    refine ⟨fun h => absurd h (by decide), fun _ => ?_, fun _ => ⟨_, hsecond⟩,
      fun h => absurd h (by decide), fun _ => ⟨_, hthird⟩, fun r hr => (by cases hr)⟩
    exact ⟨firstTurn, records_checkpointed _ _ _ (cons_ne_nil _ _) sample_reads.1⟩
  · have hnewest : Selected (checkpointsOf (logOf twoAttempts) sampleTask)
        (some (checkpointed 3 ⟨.ofNat 1⟩ 3 secondTurn).storedRow) := by
      rw [checkpoints_twoAttempts]
      refine ⟨mem_cons_of_mem _ mem_cons_self, ?_⟩
      simp only [forall_mem_cons]
      exact ⟨by decide, by decide, by decide, fun r hr => (by cases hr)⟩
    have hstart := (h _ hnewest).continues (checkpointed 5 ⟨.ofNat 2⟩ 2 thirdTurn).storedRow (by
      rw [checkpoints_twoAttempts]
      rfl) thirdTurn hthird
    rw [hsecond.start] at hstart
    exact absurd (congrArg List.length hstart) (by decide)

end Agent

end Modbit
