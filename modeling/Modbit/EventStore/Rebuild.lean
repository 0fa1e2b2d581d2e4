import Mathlib.Data.List.Induction
import Modbit.EventStore.Streams

/-!
# Rebuilding the projections

`rebuild` of `crates/event-store/src/projections.rs` deletes the rows of `tasks` and `sessions` and
projects the whole log again.  It does not delete from `task_inputs`, whose foreign key then
refuses the deletion of `tasks`; and it runs outside a transaction, so a replay that stops leaves
the tables as far as it got.

The replay succeeds exactly when no event of the log is refused, and that is when every event that
inserts a row has its row (`clean_iff_rows`).  `rebuildSpec_iff`: on a store reached by commands
the rebuild does what it is to do exactly when no input was ever queued and every created task has
its row.
-/

namespace Modbit

open Lib List

/-! ### The code -/

def projectRow (p : Projections) (r : EventRow) : Except StoreError Projections := do
  let envelope ← reconstructEnvelope r
  (project p envelope).mapError .sqlite

/-- `DELETE FROM tasks; DELETE FROM sessions`.  An input refers to its task. -/
def deleteProjections (p : Projections) : Except StoreError Projections := do
  refuseIf (∃ r ∈ p.taskInputs, r.taskId ∈ p.taskIds) (.sqlite .foreignKey)
  return { p with tasks := [], sessions := [] }

def rebuild (db : Db) : Db × Except StoreError Nat :=
  match deleteProjections db.projections with
  | .error x => (db, .error x)
  | .ok cleared =>
    let r := strict projectRow cleared db.events 0
    ({ db with projections := r.1 }, r.2)

/-- The rebuild succeeds and leaves the tables as they were; and when it fails it
leaves them too. -/
def RebuildSpec (db : Db) : Prop :=
  (∃ n, (rebuild db).2 = .ok n) ∧ (rebuild db).1.projections = db.projections ∧
    ∀ x, (rebuild db).2 = .error x → (rebuild db).1.projections = db.projections

/-! ### Replaying recorded rows -/

variable {es : List EventEnvelope} {e : EventEnvelope} {p : Projections} {db : Db}

theorem Core.reconstruct (h : Core e) : reconstructEnvelope e.storedRow = .ok e := by
  rw [reconstructEnvelope_storedRow h.faithful, h.derived]
  exact congrArg Except.ok (EventEnvelope.withIds_eq_iff.mpr rfl)

theorem projectRow_core (h : Core e) (p : Projections) :
    projectRow p e.storedRow = (project p e).mapError .sqlite := by
  rw [projectRow, h.reconstruct, ok_bind]

theorem strict_projectRow : ∀ {es : List EventEnvelope} (p : Projections) (n : Nat),
    (∀ e ∈ es, Core e) →
    strict projectRow p (es.map EventEnvelope.storedRow) n
      = ((strict project p es n).1, (strict project p es n).2.mapError .sqlite) := by
  intro es
  induction es with
  | nil => intro p n _; rfl
  | cons e es ih =>
    intro p n hcore
    rw [map_cons, strict, strict, projectRow_core (hcore e mem_cons_self)]
    cases project p e with
    | error x => rfl
    | ok p' => exact ih p' (n + 1) (fun e' he' => hcore e' (mem_cons_of_mem e he'))

/-! ### Which events were refused -/

/-- An envelope with the next number of its aggregate; a creation is the first. -/
def Numbered (es : List EventEnvelope) (e : EventEnvelope) : Prop :=
  e.sequence = (envelopesOf e.aggregateId es).length + 1 ∧
    (createdSession e ≠ [] ∨ createdTask e ≠ [] → e.sequence = 1)

/-- Every event that inserts a row of a task or an input has its row. -/
def Rows (es : List EventEnvelope) (p : Projections) : Prop :=
  ∀ e ∈ es, (∀ id ∈ createdTask e, id ∈ p.taskIds) ∧ ∀ r ∈ queuedInput e, r ∈ p.taskInputs

abbrev viewOf (es : List EventEnvelope) : Projections := lenient project .empty es

/-- What is known of a log whose envelopes are numbered: its keys are logged, and it
shows which events were refused. -/
structure Tallied (es : List EventEnvelope) : Prop where
  gapless : GaplessLog (es.map EventEnvelope.storedRow)
  keys : KeysLogged (es.map EventEnvelope.storedRow) (viewOf es)
  clean_iff : Clean project .empty es ↔ Rows es (viewOf es)

theorem Numbered.next (h : Numbered es e) (hg : GaplessLog (es.map EventEnvelope.storedRow)) :
    e.storedRow.sequence = nextSeq EventRow.aggregateId EventRow.sequence e.storedRow.aggregateId
      (es.map EventEnvelope.storedRow) :=
  h.1.trans (nextSeq_map hg e.aggregateId).symm

theorem Numbered.new_aggregate (h : Numbered es e)
    (hc : createdSession e ≠ [] ∨ createdTask e ≠ []) :
    e.aggregateId ∉ (es.map EventEnvelope.storedRow).map EventRow.aggregateId := by
  intro hmem
  rw [map_map] at hmem
  obtain ⟨e', he', hid⟩ := mem_map.mp hmem
  have hin : e' ∈ envelopesOf e.aggregateId es := mem_stream.mpr ⟨he', hid⟩
  have hpos := length_pos_of_mem hin
  have hone := h.2 hc
  have hlen := h.1
  omega

theorem Numbered.new_number (h : Numbered es e) (hg : GaplessLog (es.map EventEnvelope.storedRow)) :
    (e.aggregateId, e.sequence)
      ∉ (es.map EventEnvelope.storedRow).map (fun r => (r.aggregateId, r.sequence)) := by
  intro hmem
  obtain ⟨r, hr, hkey⟩ := mem_map.mp hmem
  obtain ⟨hid, hseq⟩ := Prod.mk.inj hkey
  exact hg.seq_ne_nextSeq hr hid (hseq.trans (h.next hg))

theorem Tallied.not_rows (h : Tallied es) (hn : Numbered es e)
    (hp : ¬ Projectable (viewOf es) e) : ¬ Rows (es ++ [e]) (viewOf es) := by
  intro hrows
  obtain ⟨htask, hinput⟩ := hrows e (mem_append_right _ mem_cons_self)
  unfold Projectable at hp
  split at hp
  · next hk hpl =>
    have hc : createdSession e = [e.aggregateId] := by simp [createdSession, hk, hpl]
    exact hp fun hmem => hn.new_aggregate (Or.inl (by simp [hc])) (h.keys.sessions _ hmem)
  · next hk hpl =>
    have hc : createdTask e = [e.aggregateId] := by simp [createdTask, hk, hpl]
    have hmem : e.aggregateId ∈ (viewOf es).taskIds := htask _ (by simp [hc])
    exact hn.new_aggregate (Or.inr (by simp [hc])) (h.keys.tasks _ hmem)
  · next inputId mode text hk hpl =>
    obtain ⟨r, hr⟩ : ∃ r, r ∈ queuedInput e := by simp [queuedInput, hk, hpl]
    obtain ⟨hid, hseq⟩ := queuedInput_mem hr
    have hlog := h.keys.inputs r (hinput r hr)
    rw [hid, hseq] at hlog
    exact hn.new_number h.gapless hlog
  · exact hp trivial

theorem Tallied.rows_iff (h : Tallied es) (hn : Numbered es e)
    (hp : project (viewOf es) e = .ok p) : Rows (es ++ [e]) p ↔ Rows es (viewOf es) := by
  obtain ⟨_, ht, hi⟩ := project_keys hp
  constructor
  · intro hrows e₀ he₀
    obtain ⟨htask, hinput⟩ := hrows e₀ (mem_append_left _ he₀)
    refine ⟨fun id hid => ?_, fun r hr => ?_⟩
    · have hmem := htask id hid
      rw [ht] at hmem
      rcases mem_append.mp hmem with hmem | hmem
      · exact hmem
      · have hsame : e₀.aggregateId = e.aggregateId :=
          (createdTask_mem hid).symm.trans (createdTask_mem hmem)
        refine absurd ?_ (hn.new_aggregate (Or.inr (ne_nil_of_mem hmem)))
        rw [← hsame, map_map]
        exact mem_map_of_mem he₀
    · have hmem := hinput r hr
      rw [hi] at hmem
      rcases mem_append.mp hmem with hmem | hmem
      · exact hmem
      · obtain ⟨hid₀, hseq₀⟩ := queuedInput_mem hr
        obtain ⟨hid, hseq⟩ := queuedInput_mem hmem
        refine absurd ?_ (hn.new_number h.gapless)
        rw [← hid, ← hseq, hid₀, hseq₀, map_map]
        exact mem_map_of_mem he₀
  · intro hrows e₀ he₀
    rw [ht, hi]
    rcases mem_append.mp he₀ with he₀ | he₀
    · obtain ⟨htask, hinput⟩ := hrows e₀ he₀
      exact ⟨fun id hid => mem_append_left _ (htask id hid),
        fun r hr => mem_append_left _ (hinput r hr)⟩
    · obtain rfl := mem_singleton.mp he₀
      exact ⟨fun id hid => mem_append_right _ hid, fun r hr => mem_append_right _ hr⟩

theorem viewOf_concat : viewOf (es ++ [e]) = applyOrKeep project (viewOf es) e := by
  rw [viewOf, lenient_append]
  rfl

theorem clean_concat : Clean project .empty (es ++ [e]) ↔
    Clean project .empty es ∧ Projectable (viewOf es) e := by
  rw [clean_append, ← project_ok_iff]
  simp [Clean]

theorem Tallied.concat (h : Tallied es) (hn : Numbered es e) : Tallied (es ++ [e]) := by
  refine ⟨?_, ?_, ?_⟩
  · rw [map_append]
    exact h.gapless.concat (hn.next h.gapless)
  · rw [map_append, viewOf_concat]
    exact h.keys.concat e
  · rw [clean_concat, viewOf_concat]
    by_cases hp : Projectable (viewOf es) e
    · obtain ⟨p, hok⟩ := project_ok_iff.mpr hp
      rw [applyOrKeep_ok hok, h.rows_iff hn hok, h.clean_iff]
      exact and_iff_left hp
    · obtain ⟨x, hx⟩ := project_error hp
      rw [applyOrKeep_error hx]
      exact iff_of_false (fun hc => hp hc.2) (h.not_rows hn hp)

theorem tallied_nil : Tallied [] := by
  refine ⟨gapless_nil, ?_, iff_of_true trivial (by simp [Rows])⟩
  exact ⟨by simp [Projections.empty, Projections.sessionIds],
    by simp [Projections.empty, Projections.taskIds], by simp [Projections.empty]⟩

/-- **The log shows its refusals.**  No event of a numbered log was refused if and only
if every event that inserts a row has its row. -/
theorem clean_iff_rows (h : Joins Numbered [] es) :
    Clean project .empty es ↔ Rows es (viewOf es) := by
  have ht : Tallied ([] ++ es) := Joins.invariant (fun _ _ ht hn => ht.concat hn) tallied_nil h
  exact ht.clean_iff

/-! ### Runs number their envelopes -/

variable {plan : List EventEnvelope} {o : Oracle} {payload : CommandPayload}

theorem joins_sequence : ∀ {plan es : List EventEnvelope},
    GaplessLog (es.map EventEnvelope.storedRow) →
    Continues EventRow.aggregateId EventRow.sequence (es.map EventEnvelope.storedRow)
      (plan.map EventEnvelope.storedRow) →
    Joins (fun es e => e.sequence = (envelopesOf e.aggregateId es).length + 1) es plan := by
  intro plan
  induction plan with
  | nil => intro es _ _; exact trivial
  | cons e plan ih =>
    intro es hg hc
    have hseq : e.sequence = (envelopesOf e.aggregateId es).length + 1 :=
      hc.1.trans (nextSeq_map hg e.aggregateId)
    have hg' := hg.concat hc.1
    have hc' := hc.2
    rw [← map_singleton, ← map_append] at hg' hc'
    exact ⟨hseq, ih hg' hc'⟩

theorem Staged.creation_first (h : Staged db o payload plan) (he : e ∈ plan)
    (hc : createdSession e ≠ [] ∨ createdTask e ≠ []) : e.sequence = 1 := by
  cases h with
  | session _ | task _ | fork _ => rw [mem_singleton.mp he]; rfl
  | input _ _ _ _ =>
    rcases mem_inputEnvelopes he with rfl | rfl
    · rcases hc with hc | hc <;> exact absurd rfl hc
    · rcases hc with hc | hc <;> exact absurd rfl hc
  | lifecycle _ hl _ _ _ _ =>
    obtain rfl := mem_singleton.mp he
    cases payload <;> cases hl <;> rcases hc with hc | hc <;> exact absurd rfl hc
  | question _ | goal _ _ | rewind _ _ _ =>
    obtain rfl := mem_singleton.mp he
    rcases hc with hc | hc <;> exact absurd rfl hc

theorem stage_numbered (hr : Records db es) (hs : stage db o payload = .ok plan) :
    Joins Numbered es plan := by
  have hst := (stage_ok hs).1
  have hc := stage_continues hr.gapless hs
  have hg := hr.gapless
  rw [map_commandRow hst.core] at hc
  rw [hr.events] at hc hg
  exact (joins_sequence hg hc).imp fun _ _ he hseq => ⟨hseq, hst.creation_first he⟩

theorem acceptedPlan_numbered (hr : Records db es) (command : Command) (o : Oracle) :
    Joins Numbered es (acceptedPlan db command o) := by
  rw [acceptedPlan]
  cases hs : stage db o command.payload with
  | error x => exact trivial
  | ok plan => exact (stage_numbered hr hs).take _

theorem written_numbered (calls : List Call) : ∀ {db : Db} {es : List EventEnvelope},
    Records db es → Joins Numbered [] es →
    Joins Numbered [] (es ++ written db (calls.map Call.op)) := by
  induction calls with
  | nil => intro db es _ h; rw [map_nil, written, append_nil]; exact h
  | cons call calls ih =>
    intro db es hr h
    have hnext := h.append (acceptedPlan_numbered hr call.1 call.2)
    have := ih (hr.execute call.1 call.2) hnext
    rwa [append_assoc] at this

/-! ### The inputs -/

theorem view_inputs (es : List EventEnvelope) : ∀ r ∈ (viewOf es).taskInputs,
    (∃ e ∈ es, r ∈ queuedInput e) ∧ r.taskId ∈ (viewOf es).taskIds := by
  induction es using List.reverseRecOn with
  | nil => intro r hr; cases hr
  | append_singleton es e ih =>
    have hold : ∀ r ∈ (viewOf es).taskInputs, (∃ e' ∈ es ++ [e], r ∈ queuedInput e') ∧
        r.taskId ∈ (viewOf es).taskIds := by
      intro r hr
      obtain ⟨⟨e', he', hq⟩, ht⟩ := ih r hr
      exact ⟨⟨e', mem_append_left _ he', hq⟩, ht⟩
    intro r hr
    rw [viewOf_concat] at hr ⊢
    cases hp : project (viewOf es) e with
    | error x =>
      rw [applyOrKeep_error hp] at hr ⊢
      exact hold r hr
    | ok p =>
      rw [applyOrKeep_ok hp] at hr ⊢
      obtain ⟨_, ht, hi⟩ := project_keys hp
      rw [hi] at hr
      rw [ht]
      rcases mem_append.mp hr with hr | hr
      · exact ⟨(hold r hr).1, mem_append_left _ (hold r hr).2⟩
      · refine ⟨⟨e, mem_append_right _ mem_cons_self, hr⟩, mem_append_left _ ?_⟩
        have hproj : Projectable (viewOf es) e := project_ok_iff.mp ⟨p, hp⟩
        rw [(queuedInput_mem hr).1]
        unfold queuedInput at hr
        split at hr
        · next hk hpl =>
          simp only [Projectable, hk, hpl] at hproj
          exact hproj.2.2
        · cases hr

def InputRow (r : EventRow) : Prop := r.aggregateType = "task" ∧ r.eventType = "task_input_queued"

def CreationRow (r : EventRow) : Prop := r.aggregateType = "task" ∧ r.eventType = "task_created"

theorem inputRow_iff (h : Core e) : InputRow e.storedRow ↔ queuedInput e ≠ [] := by
  have htype : e.storedRow.eventType = eventTypeOf e.payload := h.typed
  have hkind : e.storedRow.aggregateType = e.aggregateType.asStr := rfl
  rw [InputRow, htype, hkind, queuedInput]
  cases e.aggregateType <;> cases e.payload <;> simp [eventTypeOf, AggregateType.asStr]

theorem creationRow_iff (h : Core e) : CreationRow e.storedRow ↔ createdTask e ≠ [] := by
  have htype : e.storedRow.eventType = eventTypeOf e.payload := h.typed
  have hkind : e.storedRow.aggregateType = e.aggregateType.asStr := rfl
  rw [CreationRow, htype, hkind, createdTask]
  cases e.aggregateType <;> cases e.payload <;> simp [eventTypeOf, AggregateType.asStr]

/-- No input was queued and every created task has its row. -/
def Rebuildable (db : Db) : Prop :=
  (∀ r ∈ db.events, ¬ InputRow r) ∧
    ∀ r ∈ db.events, CreationRow r → r.aggregateId ∈ db.projections.taskIds

theorem rebuildable_iff (hr : Records db es) (hp : db.projections = viewOf es) :
    Rebuildable db ↔ (viewOf es).taskInputs = [] ∧ Rows es (viewOf es) := by
  rw [Rebuildable, hr.events, forall_mem_map, forall_mem_map, hp]
  constructor
  · rintro ⟨hnone, hcreated⟩
    have hempty : ∀ e ∈ es, queuedInput e = [] :=
      fun e he => not_not.mp fun hne => hnone e he ((inputRow_iff (hr.core e he)).mpr hne)
    refine ⟨?_, fun e he => ⟨fun id hid => ?_, fun r hr => ?_⟩⟩
    · refine eq_nil_iff_forall_not_mem.mpr (fun r hmem => ?_)
      obtain ⟨⟨e, he, hq⟩, _⟩ := view_inputs es r hmem
      rw [hempty e he] at hq
      cases hq
    · rw [createdTask_mem hid]
      exact hcreated e he ((creationRow_iff (hr.core e he)).mpr (ne_nil_of_mem hid))
    · rw [hempty e he] at hr
      cases hr
  · rintro ⟨hnil, hrows⟩
    refine ⟨fun e he hin => ?_, fun e he hc => ?_⟩
    · obtain ⟨r, hmem⟩ := exists_mem_of_ne_nil _ ((inputRow_iff (hr.core e he)).mp hin)
      have hrow := (hrows e he).2 r hmem
      rw [hnil] at hrow
      cases hrow
    · obtain ⟨id, hid⟩ := exists_mem_of_ne_nil _ ((creationRow_iff (hr.core e he)).mp hc)
      have hrow := (hrows e he).1 id hid
      rw [createdTask_mem hid] at hrow
      exact hrow

/-! ### The result -/

theorem rebuild_of_input (hp : db.projections = viewOf es) (h : (viewOf es).taskInputs ≠ []) :
    rebuild db = (db, .error (.sqlite .foreignKey)) := by
  obtain ⟨r, hr⟩ := exists_mem_of_ne_nil _ h
  have href : ∃ r ∈ db.projections.taskInputs, r.taskId ∈ db.projections.taskIds := by
    rw [hp]
    exact ⟨r, hr, (view_inputs es r hr).2⟩
  rw [rebuild, deleteProjections, refuseIf, if_pos href]
  rfl

theorem rebuild_of_no_input (hr : Records db es) (hnil : db.projections.taskInputs = []) :
    rebuild db = ({ db with projections := (strict project .empty es 0).1 },
      (strict project .empty es 0).2.mapError .sqlite) := by
  have hdel : deleteProjections db.projections = .ok .empty := by
    rw [deleteProjections, refuseIf, if_neg (by simp [hnil])]
    simp [hnil, Projections.empty]
  have hstrict : strict projectRow .empty (es.map EventEnvelope.storedRow) 0
      = ((strict project .empty es 0).1, (strict project .empty es 0).2.mapError .sqlite) :=
    strict_projectRow .empty 0 hr.core
  rw [rebuild, hdel]
  simp only
  rw [hr.events, hstrict]

theorem rebuildSpec_iff_clean (hr : Records db es) (hp : db.projections = viewOf es) :
    RebuildSpec db ↔ (viewOf es).taskInputs = [] ∧ Clean project .empty es := by
  by_cases hnil : (viewOf es).taskInputs = []
  · have hreb := rebuild_of_no_input hr (hp ▸ hnil)
    rw [RebuildSpec, hreb, and_iff_right hnil]
    constructor
    · rintro ⟨⟨n, hn⟩, _⟩
      exact clean_of_strict es Projections.empty 0 n (ok_of_mapError _ hn)
    · intro hclean
      rw [strict_of_clean es Projections.empty 0 hclean]
      exact ⟨⟨_, rfl⟩, hp.symm, fun x hx => by cases hx⟩
  · have hreb := rebuild_of_input hp hnil
    rw [RebuildSpec, hreb]
    refine iff_of_false ?_ (fun h => hnil h.1)
    rintro ⟨⟨n, hn⟩, _⟩
    cases hn

/-- **When a rebuild does what it is to do.**  On a store reached by commands: exactly
when no input was queued and every created task has its row. -/
theorem rebuildSpec_iff (calls : List Call) :
    RebuildSpec (Db.afterCalls calls) ↔ Rebuildable (Db.afterCalls calls) := by
  have hr := records_afterCalls calls
  have hp : (Db.afterCalls calls).projections = viewOf (written .empty (calls.map Call.op)) := by
    rw [afterCalls_eq]
    exact after_projections _
  have hnil : Records Db.empty [] := ⟨gapless_nil, rfl, by simp⟩
  have hnum : Joins Numbered [] (written .empty (calls.map Call.op)) :=
    written_numbered calls hnil trivial
  rw [rebuildSpec_iff_clean hr hp, rebuildable_iff hr hp, clean_iff_rows hnum]

/-! ### A queued input -/

def inputSetup : List Call :=
  sampleCalls [.createSession "s", .createTask ⟨.ofNat 0⟩ "title" "prompt" none none none,
    .queueTask ⟨.ofNat 3⟩, .startTask ⟨.ofNat 3⟩, .queueTaskInput ⟨.ofNat 3⟩ "i" .collect "text"]

/-- The deletion of the tasks fails on the input's foreign key. -/
theorem not_rebuildSpec_input : ¬ RebuildSpec (Db.afterCalls inputSetup) := by
  rintro ⟨⟨n, hn⟩, _⟩
  have hfail : (rebuild (run evalCall Db.empty inputSetup)).2 = .error (.sqlite .foreignKey) := by
    decide +kernel
  rw [afterCalls_eval, hfail] at hn
  cases hn

end Modbit
