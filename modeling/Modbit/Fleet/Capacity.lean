import Modbit.Fleet.Compensation
import Modbit.Lib.Reservation

/-!
# How many children there are

Calls of `spawn_agent` whose phases interleave, with each other and with the commands that move
the tasks.  A parent is to have no more live children than the configured maximum, and a key one
such child (`Bounded`).

Count and creation are two transactions; the count leaves out children that are not yet queued;
and a key is looked up before its child is created.  `Clear` excludes the steps that are led
astray by this.

`bounded_run`: in every run of clear steps both bounds hold in every state.  A call that has
counted holds a slot until it creates its child, and one that has looked up holds its key; the
invariant counts what is held with what exists.
-/

namespace Modbit

open Lib WriteScopes List

namespace Fleet

namespace Capacity

/-! ### Interleaved calls -/

structure World where
  services : Services
  calls : List (SpawnAgentCommand × Phase)
  /-- The children that were spawned, each after the key of its spawn. -/
  spawned : List (String × String)

inductive Event where
  | begin (spawn : SpawnAgentCommand)
  | advance (i : Nat) (turn : Turn)
  | command (command : Command) (o : Oracle)

def added (db db' : Db) : List TaskRow := db'.projections.tasks.drop db.projections.tasks.length

def World.settle (w : World) (i : Nat) (spawn : SpawnAgentCommand) (r : Services × Phase) : World where
  services := r.1
  calls := w.calls.set i (spawn, r.2)
  spawned := w.spawned
    ++ (added w.services.db r.1.db).map (fun t => (spawn.idempotencyKey, t.taskId))

def step (json : Jsonl.Codec AgentNode) (w : World) : Event → World × Unit
  | .begin spawn => ({ w with calls := w.calls ++ [(spawn, .lookup)] }, ())
  | .advance i turn =>
    match w.calls[i]? with
    | none => (w, ())
    | some (spawn, phase) => (w.settle i spawn (w.services.advance spawn json turn phase), ())
  | .command command o =>
    ({ w with services := { w.services with db := (execute w.services.db command o).1 } }, ())

def start (fleet : Option FleetStore) (maxChildren : Nat) : World :=
  ⟨⟨.empty, fleet, false, maxChildren⟩, [], []⟩

/-! ### The bounds -/

def isChild (parent : String) (t : TaskRow) : Bool :=
  t.parentTaskId = some parent ∧ t.state ∉ TERMINAL_STATES

def liveChildren (db : Db) (parent : String) : Nat := db.projections.tasks.countP (isChild parent)

def live (db : Db) (taskId : String) : Bool :=
  db.projections.tasks.any (fun t => t.taskId = taskId ∧ t.state ∉ TERMINAL_STATES)

def isFor (db : Db) (key : String) (c : String × String) : Bool := c.1 = key ∧ live db c.2

/-- No parent has more children than the maximum, and no key two. -/
structure Bounded (w : World) : Prop where
  children : ∀ parent, liveChildren w.services.db parent ≤ w.services.maxChildren
  keys : ∀ key, key ≠ "" → ∀ c ∈ w.spawned, ∀ c' ∈ w.spawned,
    isFor w.services.db key c = true → isFor w.services.db key c' = true → c.2 = c'.2

/-! ### Slots and keys that are taken -/

/-- The children are counted, and the child is not created. -/
def afterCount : Phase → Bool
  | .create _ => true
  | _ => false

/-- The key is looked up, and the child is not created. -/
def afterLookup : Phase → Bool
  | .parent => true
  | .count _ => true
  | .create _ => true
  | _ => false

/-- A call that is about to create a child of the parent. -/
def takesSlot (parent : String) (call : SpawnAgentCommand × Phase) : Bool :=
  decide (call.1.parentTaskId = parent) && afterCount call.2

/-- A call that is about to create a child for the key. -/
def takesKey (key : String) (call : SpawnAgentCommand × Phase) : Bool :=
  decide (call.1.idempotencyKey = key) && afterLookup call.2

def found (fleet : Option FleetStore) (key : String) : Bool :=
  fleet.any (fun f => (findByIdempotencyKey f.fleet key).isSome)

/-- The lookup of a call: no other call is about to create a child for the key, and the fleet has
the node of every child of the key. -/
def ClearLookup (w : World) (key : String) : Prop :=
  key ≠ "" → (∀ call ∈ w.calls, takesKey key call = false) ∧
    ∀ c ∈ w.spawned, isFor w.services.db key c = true → found w.services.fleet key = true

/-- The count of a call: no other call is about to create a child of the parent, and no child is
only created. -/
def ClearCount (w : World) (parent : String) : Prop :=
  (∀ call ∈ w.calls, takesSlot parent call = false) ∧
    ∀ t ∈ w.services.db.projections.tasks, t.parentTaskId = some parent → t.state ≠ "created"

def ClearPhase (w : World) (spawn : SpawnAgentCommand) : Phase → Prop
  | .lookup => ClearLookup w spawn.idempotencyKey
  | .count _ => ClearCount w spawn.parentTaskId
  | _ => True

def childless : CommandPayload → Bool
  | .createTask _ _ _ _ _ (some _) => false
  | _ => true

/-- The step of a call is clear; a command does not create the child of a task. -/
def Clear (w : World) : Event → Prop
  | .begin _ => True
  | .advance i _ => ∀ call ∈ w.calls[i]?, ClearPhase w call.1 call.2
  | .command command _ => childless command.payload = true

/-! ### What a step does to the tasks -/

/-- The rows keep their tasks and parents, none leaves a terminal state, and the new ones are those
of new tasks. -/
structure Grows (db db' : Db) (new : List TaskRow) : Prop where
  gapless : GaplessLog db'.events
  shows : ∀ taskId, db'.Shows taskId
  rows : ∃ f : TaskRow → TaskRow, db'.projections.tasks = db.projections.tasks.map f ++ new ∧
    ∀ t ∈ db.projections.tasks, RowKept t (f t)
  fresh : ∀ t ∈ new, t.taskId ∉ db.projections.taskIds ∧ t.Known

variable {db db' : Db} {new : List TaskRow} {spawn : SpawnAgentCommand} {turn : Turn}
  {payload : CommandPayload}

theorem grows_sameLog (hg : GaplessLog db.events) (hshows : ∀ taskId, db.Shows taskId)
    (hsame : SameLog db db') : Grows db db' [] := by
  refine ⟨hsame.events ▸ hg, fun taskId history hload => ?_, ⟨id, ?_, fun t _ => ⟨rfl, rfl, id, id⟩⟩,
    fun t ht => (by cases ht)⟩
  · rw [loadTaskEvents, selectAggregate, hsame.events] at hload
    rw [hsame.projections]
    exact hshows taskId history hload
  · rw [hsame.projections, map_id, append_nil]

theorem grows_refl (hg : GaplessLog db.events) (hshows : ∀ taskId, db.Shows taskId) :
    Grows db db [] := grows_sameLog hg hshows ⟨rfl, rfl, rfl⟩

theorem grows_execute (hg : GaplessLog db.events) (hshows : ∀ taskId, db.Shows taskId)
    (command : Command) (o : Oracle) :
    ∃ new, Grows db (execute db command o).1 new ∧
      (new = [] ∨ ∃ t, new = [t] ∧ CreatedBy db command o t) := by
  obtain ⟨f, new, hrows, hkept, hnew⟩ := execute_rows hshows command o
  refine ⟨new, ⟨(execute_extended hg).gapless, fun taskId => shows_execute hg (hshows taskId),
    ⟨f, hrows, hkept⟩, fun t ht => ?_⟩, hnew⟩
  rcases hnew with rfl | ⟨t', rfl, hcreated⟩
  · cases ht
  · rw [mem_singleton.mp ht]
    exact ⟨hcreated.new, .created, hcreated.state⟩

theorem grows_other (hg : GaplessLog db.events) (hshows : ∀ taskId, db.Shows taskId)
    {command : Command} {o : Oracle} (hother : ∀ s title prompt repo base parent,
      command.payload ≠ .createTask s title prompt repo base parent) :
    Grows db (execute db command o).1 [] := by
  obtain ⟨new, hgrows, rfl | ⟨t, -, hcreated⟩⟩ := grows_execute hg hshows command o
  · exact hgrows
  · obtain ⟨s, title, prompt, repo, base, hp⟩ := hcreated.payload
    exact absurd hp (hother s title prompt repo base _)

theorem executeCommand_db (db : Db) (payload : CommandPayload) (turn : Turn) :
    (executeCommand db payload turn).1 = db ∨
      (executeCommand db payload turn).1 = (execute db (turn.command payload) turn.oracle).1 := by
  rw [executeCommand]
  split_ifs
  · exact .inl rfl
  · refine .inr ?_
    unfold Turn.command
    generalize execute db _ turn.oracle = r
    rcases r with ⟨db', _ | _ | _ | _⟩ <;> rfl

theorem grows_executeCommand (hg : GaplessLog db.events) (hshows : ∀ taskId, db.Shows taskId)
    (hother : ∀ s title prompt repo base parent,
      payload ≠ .createTask s title prompt repo base parent) (turn : Turn) :
    Grows db (executeCommand db payload turn).1 [] := by
  rcases executeCommand_db db payload turn with heq | heq
  · rw [heq]
    exact grows_refl hg hshows
  · rw [heq]
    exact grows_other hg hshows hother

/-! ### What a phase does -/

section Phases

variable {s : Services} {json : Jsonl.Codec AgentNode}

theorem create_db (session : String) :
    (s.create spawn session turn).1.maxChildren = s.maxChildren ∧
      ((s.create spawn session turn).1.db = s.db ∨ ∃ sessionId,
        (s.create spawn session turn).1.db
          = (executeCommand s.db (Services.createPayload spawn sessionId) turn).1) := by
  unfold Services.create
  cases (Id.parse session : Option SessionId) with
  | none => exact ⟨rfl, .inl rfl⟩
  | some sessionId =>
    dsimp only
    cases hexec : executeCommand s.db (Services.createPayload spawn sessionId) turn with
    | mk db answer =>
      rcases answer with e | _ | child
      · exact ⟨rfl, .inr ⟨sessionId, by rw [hexec]⟩⟩
      · exact ⟨rfl, .inr ⟨sessionId, by rw [hexec]⟩⟩
      · exact ⟨rfl, .inr ⟨sessionId, by rw [hexec]⟩⟩

theorem recordNode_db (child : String) :
    (s.recordNode spawn json child turn).1.maxChildren = s.maxChildren ∧
      (s.recordNode spawn json child turn).1.db = s.db := by
  unfold Services.recordNode
  cases s.fleet with
  | none => exact ⟨rfl, rfl⟩
  | some f =>
    dsimp only
    split_ifs
    · exact ⟨rfl, rfl⟩
    · generalize f.spawnChild json turn.disk _ child child spawn.objective _ _ = r
      obtain ⟨f', reply⟩ := r
      cases reply <;> exact ⟨rfl, rfl⟩

theorem acquireScope_db (child : String) :
    (s.acquireScope spawn child turn).1.maxChildren = s.maxChildren ∧
      SameLog s.db (s.acquireScope spawn child turn).1.db := by
  have hsame : SameLog s.db (acquireUpTo s.db child (parentRepoKey s.db spawn.parentTaskId)
      spawn.writeScope turn.statement).1 := acquireUpTo_acquires.same
  unfold Services.acquireScope
  generalize acquireUpTo s.db child (parentRepoKey s.db spawn.parentTaskId) spawn.writeScope
    turn.statement = r at hsame
  obtain ⟨db, e | _ | _⟩ := r
  · exact ⟨rfl, hsame⟩
  · exact ⟨rfl, hsame⟩
  · exact ⟨rfl, hsame⟩

theorem moveChild_db (child : String) (payload : CommandPayload) (next : Db → Phase) :
    (s.moveChild child payload next turn).1.maxChildren = s.maxChildren ∧
      (s.moveChild child payload next turn).1.db = (executeCommand s.db payload turn).1 := by
  unfold Services.moveChild
  generalize executeCommand s.db payload turn = r
  obtain ⟨db, e | v⟩ := r
  · exact ⟨rfl, rfl⟩
  · exact ⟨rfl, rfl⟩

theorem cancelChild_db (child : String) (e : SpawnError) :
    (s.cancelChild child e turn).1.maxChildren = s.maxChildren ∧
      ((s.cancelChild child e turn).1.db = s.db ∨ ∃ taskId reason,
        (s.cancelChild child e turn).1.db
          = (executeCommand s.db (.cancelTask taskId reason) turn).1) := by
  unfold Services.cancelChild
  cases (Id.parse child : Option TaskId) with
  | none => exact ⟨rfl, .inl rfl⟩
  | some taskId => exact ⟨rfl, .inr ⟨taskId, _, rfl⟩⟩

/-- **What a phase does to the tasks.**  Only the creation adds one, a child of the parent. -/
theorem advance_grows (hg : GaplessLog s.db.events) (hshows : ∀ taskId, s.db.Shows taskId)
    (json : Jsonl.Codec AgentNode) (spawn : SpawnAgentCommand) (turn : Turn) (phase : Phase) :
    ∃ new, Grows s.db (s.advance spawn json turn phase).1.db new ∧
      (new = [] ∨ (∃ session, phase = .create session) ∧
        ∃ t, new = [t] ∧ t.parentTaskId = some spawn.parentTaskId) := by
  have hrefl := grows_refl hg hshows
  cases phase with
  | lookup => exact ⟨[], hrefl, .inl rfl⟩
  | parent => exact ⟨[], hrefl, .inl rfl⟩
  | count session => exact ⟨[], hrefl, .inl rfl⟩
  | done r => exact ⟨[], hrefl, .inl rfl⟩
  | panicked => exact ⟨[], hrefl, .inl rfl⟩
  | create session =>
    rw [Services.advance]
    rcases (create_db session).2 with heq | ⟨sessionId, heq⟩
    · exact ⟨[], heq ▸ hrefl, .inl rfl⟩
    · rw [heq]
      rcases executeCommand_db s.db (Services.createPayload spawn sessionId) turn with hdb | hdb
      · rw [hdb]
        exact ⟨[], hrefl, .inl rfl⟩
      · obtain ⟨new, hgrows, hnew⟩ := grows_execute hg hshows
          (turn.command (Services.createPayload spawn sessionId)) turn.oracle
        rw [hdb]
        refine ⟨new, hgrows, hnew.imp_right (fun ⟨t, hone, hcreated⟩ => ⟨⟨session, rfl⟩, t, hone, ?_⟩)⟩
        obtain ⟨_, _, _, _, _, hp⟩ := hcreated.payload
        injection hp with _ _ _ _ _ hparent
        exact hparent.symm
  | node child =>
    rw [Services.advance, (recordNode_db child).2]
    exact ⟨[], hrefl, .inl rfl⟩
  | acquire child => exact ⟨[], grows_sameLog hg hshows (acquireScope_db child).2, .inl rfl⟩
  | queue child =>
    rw [Services.advance, (moveChild_db _ _ _).2]
    exact ⟨[], grows_executeCommand hg hshows (fun _ _ _ _ _ _ h => (by cases h)) turn, .inl rfl⟩
  | start child =>
    rw [Services.advance, (moveChild_db _ _ _).2]
    exact ⟨[], grows_executeCommand hg hshows (fun _ _ _ _ _ _ h => (by cases h)) turn, .inl rfl⟩
  | release child e =>
    refine ⟨[], grows_sameLog hg hshows ?_, .inl rfl⟩
    rw [Services.advance, Services.releaseChild]
    split_ifs
    · exact ⟨rfl, rfl, rfl⟩
    · exact ⟨rfl, rfl, rfl⟩
  | cancel child e =>
    rw [Services.advance]
    rcases (cancelChild_db child e).2 with heq | ⟨taskId, reason, heq⟩
    · exact ⟨[], heq ▸ hrefl, .inl rfl⟩
    · rw [heq]
      exact ⟨[], grows_executeCommand hg hshows (fun _ _ _ _ _ _ h => (by cases h)) turn, .inl rfl⟩

theorem advance_maxChildren (phase : Phase) :
    (s.advance spawn json turn phase).1.maxChildren = s.maxChildren := by
  cases phase with
  | create session => exact (create_db session).1
  | node child => exact (recordNode_db child).1
  | acquire child => exact (acquireScope_db child).1
  | queue child => exact (moveChild_db _ _ _).1
  | start child => exact (moveChild_db _ _ _).1
  | cancel child e => exact (cancelChild_db child e).1
  | _ => rfl

def pastCreate : Phase → Bool
  | .lookup => false
  | .parent => false
  | .count _ => false
  | .create _ => false
  | _ => true

theorem pastCreate_create (session : String) :
    pastCreate (s.create spawn session turn).2 = true := by
  unfold Services.create
  cases (Id.parse session : Option SessionId) with
  | none => rfl
  | some sessionId =>
    dsimp only
    generalize executeCommand s.db (Services.createPayload spawn sessionId) turn = r
    obtain ⟨db, e | _ | child⟩ := r <;> rfl

theorem pastCreate_advance (phase : Phase) (h : pastCreate phase = true) :
    pastCreate (s.advance spawn json turn phase).2 = true := by
  cases phase with
  | lookup | parent | count session | create session => cases h
  | node child =>
    rw [Services.advance, Services.recordNode]
    cases s.fleet with
    | none => rfl
    | some f =>
      dsimp only
      split_ifs
      · rfl
      · generalize f.spawnChild json turn.disk _ child child spawn.objective _ _ = r
        obtain ⟨f', reply⟩ := r
        cases reply <;> rfl
  | acquire child =>
    rw [Services.advance, Services.acquireScope]
    generalize acquireUpTo s.db child (parentRepoKey s.db spawn.parentTaskId) spawn.writeScope
      turn.statement = r
    obtain ⟨db, e | _ | _⟩ := r <;> rfl
  | queue child =>
    rw [Services.advance, Services.moveChild]
    generalize executeCommand s.db _ turn = r
    obtain ⟨db, e | v⟩ := r <;> rfl
  | start child =>
    rw [Services.advance, Services.moveChild]
    generalize executeCommand s.db _ turn = r
    obtain ⟨db, e | v⟩ := r <;> rfl
  | release child e => rfl
  | cancel child e =>
    rw [Services.advance, Services.cancelChild]
    cases (Id.parse child : Option TaskId) <;> rfl
  | done r => rfl
  | panicked => rfl

variable {phase : Phase}

theorem afterCount_pastCreate (h : pastCreate phase = true) :
    afterCount phase = false ∧ afterLookup phase = false := by
  cases phase <;> cases h <;> exact ⟨rfl, rfl⟩

theorem lookup_parent (h : s.lookup spawn = .parent) :
    spawn.idempotencyKey = "" ∨ found s.fleet spawn.idempotencyKey = false := by
  by_cases hkey : spawn.idempotencyKey = ""
  · exact .inl hkey
  · refine .inr ?_
    cases hfleet : s.fleet with
    | none => rfl
    | some f =>
      rw [found, Option.any_some, lookup_unfound hfleet hkey h]
      rfl

theorem afterCount_advance (h : afterCount (s.advance spawn json turn phase).2 = true) :
    ∃ session, phase = .count session ∧
      Services.activeChildren s.db spawn.parentTaskId < s.maxChildren := by
  have hpast : pastCreate (s.advance spawn json turn phase).2 = false := by
    by_contra hnot
    rw [(afterCount_pastCreate (Bool.not_eq_false _ ▸ hnot)).1] at h
    cases h
  cases phase with
  | lookup =>
    rw [Services.advance] at h
    rcases lookup_cases s spawn with hl | ⟨r, hl⟩ <;> rw [hl] at h <;> cases h
  | parent =>
    rw [Services.advance] at h
    rcases checkParent_cases s spawn with ⟨session, hp, -⟩ | ⟨r, hp⟩ <;> rw [hp] at h <;> cases h
  | count session =>
    refine ⟨session, rfl, ?_⟩
    rw [Services.advance, Services.checkCount] at h
    by_contra hge
    rw [if_pos (Nat.le_of_not_lt hge)] at h
    cases h
  | create session =>
    rw [Services.advance, pastCreate_create] at hpast
    cases hpast
  | _ =>
    rw [pastCreate_advance _ rfl] at hpast
    cases hpast

theorem afterLookup_advance (h : afterLookup (s.advance spawn json turn phase).2 = true) :
    (phase = .lookup ∧ (spawn.idempotencyKey = "" ∨ found s.fleet spawn.idempotencyKey = false)) ∨
      afterLookup phase = true := by
  have hpast : pastCreate (s.advance spawn json turn phase).2 = false := by
    by_contra hnot
    rw [(afterCount_pastCreate (Bool.not_eq_false _ ▸ hnot)).2] at h
    cases h
  cases phase with
  | lookup =>
    refine .inl ⟨rfl, ?_⟩
    rcases lookup_cases s spawn with hl | ⟨r, hl⟩
    · exact lookup_parent hl
    · rw [Services.advance, hl] at h
      cases h
  | parent => exact .inr rfl
  | count session => exact .inr rfl
  | create session =>
    rw [Services.advance, pastCreate_create] at hpast
    cases hpast
  | _ =>
    rw [pastCreate_advance _ rfl] at hpast
    cases hpast

end Phases

/-! ### The invariant -/

theorem Grows.added_eq (h : Grows db db' new) : added db db' = new := by
  obtain ⟨f, hrows, -⟩ := h.rows
  have hlen : db.projections.tasks.length = (db.projections.tasks.map f).length :=
    (length_map f).symm
  rw [added, hrows, hlen, drop_left]

theorem Grows.liveChildren_le (h : Grows db db' new) (parent : String) :
    liveChildren db' parent ≤ liveChildren db parent + new.countP (isChild parent) := by
  obtain ⟨f, hrows, hkept⟩ := h.rows
  rw [liveChildren, liveChildren, hrows, countP_append, countP_map]
  refine Nat.add_le_add_right (countP_mono_left (fun t ht hchild => ?_)) _
  obtain ⟨hparent, hlive⟩ := of_decide_eq_true hchild
  exact decide_eq_true ⟨(hkept t ht).parent ▸ hparent, fun hterminal => hlive ((hkept t ht).terminal hterminal)⟩

theorem Grows.live_of (h : Grows db db' new) {taskId : String}
    (hmem : taskId ∈ db.projections.taskIds) (hlive : live db' taskId = true) :
    live db taskId = true := by
  obtain ⟨f, hrows, hkept⟩ := h.rows
  obtain ⟨t', ht', hid⟩ := any_eq_true.mp hlive
  obtain ⟨hid, hactive⟩ := of_decide_eq_true hid
  rw [hrows, mem_append] at ht'
  rcases ht' with ht' | ht'
  · obtain ⟨t, ht, rfl⟩ := mem_map.mp ht'
    refine any_eq_true.mpr ⟨t, ht, decide_eq_true ⟨(hkept t ht).taskId ▸ hid, fun hterminal => ?_⟩⟩
    exact hactive ((hkept t ht).terminal hterminal)
  · exact absurd (hid ▸ hmem) (h.fresh t' ht').1

theorem Grows.taskIds_subset (h : Grows db db' new) {taskId : String}
    (hmem : taskId ∈ db.projections.taskIds) : taskId ∈ db'.projections.taskIds := by
  obtain ⟨f, hrows, hkept⟩ := h.rows
  obtain ⟨t, ht, rfl⟩ := mem_map.mp hmem
  refine mem_map.mpr ⟨f t, ?_, (hkept t ht).taskId⟩
  rw [hrows]
  exact mem_append_left _ (mem_map_of_mem ht)

theorem Grows.known (h : Grows db db' new) (hknown : ∀ t ∈ db.projections.tasks, t.Known) :
    ∀ t ∈ db'.projections.tasks, t.Known := by
  obtain ⟨f, hrows, hkept⟩ := h.rows
  intro t' ht'
  rw [hrows, mem_append] at ht'
  rcases ht' with ht' | ht'
  · obtain ⟨t, ht, rfl⟩ := mem_map.mp ht'
    exact (hkept t ht).known (hknown t ht)
  · exact (h.fresh t' ht').2

theorem counted_text (state : TaskState) (hlive : state.text ∉ TERMINAL_STATES)
    (hcreated : state.text ≠ "created") : Services.counted state.text = true := by
  cases state with
  | created => exact absurd rfl hcreated
  | waiting reason => cases reason <;> decide
  | completed | failed | cancelled => exact absurd (by decide) hlive
  | queued | running | readyForReview => decide

theorem liveChildren_le_active {parent : String} (hknown : ∀ t ∈ db.projections.tasks, t.Known)
    (hqueued : ∀ t ∈ db.projections.tasks, t.parentTaskId = some parent → t.state ≠ "created") :
    liveChildren db parent ≤ Services.activeChildren db parent := by
  rw [liveChildren, Services.activeChildren, ← countP_eq_length_filter]
  refine countP_mono_left (fun t ht hchild => ?_)
  obtain ⟨hparent, hlive⟩ := of_decide_eq_true hchild
  obtain ⟨state, hstate⟩ := hknown t ht
  rw [hstate] at hlive
  rw [hparent, hstate, counted_text state hlive (hstate ▸ hqueued t ht hparent)]
  simp

/-- What holds in every state: rows and events agree, and what is taken fits with what exists. -/
structure Good (w : World) : Prop where
  gapless : GaplessLog w.services.db.events
  shows : ∀ taskId, w.services.db.Shows taskId
  known : ∀ t ∈ w.services.db.projections.tasks, t.Known
  listed : ∀ c ∈ w.spawned, c.2 ∈ w.services.db.projections.taskIds
  slots : ∀ parent, Within (takesSlot parent) w.services.maxChildren
    (liveChildren w.services.db parent) w.calls
  keys : ∀ key, key ≠ "" →
    Within (takesKey key) 1 (w.spawned.countP (isFor w.services.db key)) w.calls

variable {w : World}

theorem Good.bounded (h : Good w) : Bounded w := by
  refine ⟨fun parent => (h.slots parent).le, fun key hkey c hc c' hc' hfor hfor' => ?_⟩
  have hle := (h.keys key hkey).le
  rw [countP_eq_length_filter] at hle
  have hmem := mem_filter.mpr ⟨hc, hfor⟩
  have hmem' := mem_filter.mpr ⟨hc', hfor'⟩
  generalize w.spawned.filter (isFor w.services.db key) = l at hle hmem hmem'
  match l with
  | [] => cases hmem
  | [a] => rw [mem_singleton.mp hmem, mem_singleton.mp hmem']
  | a :: b :: l => simp at hle

theorem Grows.countP_isFor_le (h : Grows db db' new) {spawned : List (String × String)}
    (hlisted : ∀ c ∈ spawned, c.2 ∈ db.projections.taskIds) (key : String) :
    spawned.countP (isFor db' key) ≤ spawned.countP (isFor db key) := by
  refine countP_mono_left (fun c hc hfor => ?_)
  obtain ⟨hkey, hlive⟩ := of_decide_eq_true hfor
  exact decide_eq_true ⟨hkey, h.live_of (hlisted c hc) hlive⟩

theorem good_start (fleet : Option FleetStore) (maxChildren : Nat) :
    Good (start fleet maxChildren) := by
  have hshows : ∀ taskId, Db.empty.Shows taskId := fun taskId =>
    shows_new gapless_nil (after_keysLogged []) (fun h => (by cases h))
  exact ⟨gapless_nil, hshows, fun t ht => (by cases ht), fun c hc => (by cases hc),
    fun _ => Within.nil (Nat.zero_le _), fun _ _ => Within.nil (Nat.zero_le _)⟩

theorem Good.begin (h : Good w) (spawn : SpawnAgentCommand) :
    Good { w with calls := w.calls ++ [(spawn, .lookup)] } := by
  refine ⟨h.gapless, h.shows, h.known, h.listed, fun parent => (h.slots parent).enter ?_,
    fun key hkey => (h.keys key hkey).enter ?_⟩
  · exact Bool.and_false _
  · exact Bool.and_false _

theorem Good.command (h : Good w) {command : Command} (o : Oracle)
    (hclear : childless command.payload = true) :
    Good { w with services := { w.services with db := (execute w.services.db command o).1 } } := by
  obtain ⟨new, hgrows, hnew⟩ := grows_execute h.gapless h.shows command o
  have hnone : ∀ parent, new.countP (isChild parent) = 0 := by
    intro parent
    rcases hnew with rfl | ⟨t, rfl, hcreated⟩
    · rfl
    · obtain ⟨s, title, prompt, repo, base, hp⟩ := hcreated.payload
      refine countP_eq_zero.mpr (fun t' ht' hchild => ?_)
      rw [mem_singleton.mp ht'] at hchild
      rw [hp, (of_decide_eq_true hchild).1] at hclear
      cases hclear
  refine ⟨hgrows.gapless, hgrows.shows, hgrows.known h.known,
    fun c hc => hgrows.taskIds_subset (h.listed c hc), fun parent => (h.slots parent).congr ?_,
    fun key hkey => (h.keys key hkey).congr (hgrows.countP_isFor_le h.listed key)⟩
  have hle := hgrows.liveChildren_le parent
  rw [hnone parent] at hle
  exact hle

section Advance

variable {i : Nat} {spawn : SpawnAgentCommand} {phase : Phase} {json : Jsonl.Codec AgentNode}
  {turn : Turn}

theorem takesSlot_iff {parent : String} :
    takesSlot parent (spawn, phase) = true ↔ spawn.parentTaskId = parent ∧ afterCount phase = true := by
  rw [takesSlot, Bool.and_eq_true, decide_eq_true_iff]

theorem takesKey_iff {key : String} :
    takesKey key (spawn, phase) = true ↔ spawn.idempotencyKey = key ∧ afterLookup phase = true := by
  rw [takesKey, Bool.and_eq_true, decide_eq_true_iff]

theorem Good.settle (h : Good w) {r : Services × Phase} (hmax : r.1.maxChildren = w.services.maxChildren)
    (hgrows : Grows w.services.db r.1.db new)
    (hslots : ∀ parent, Within (takesSlot parent) w.services.maxChildren
      (liveChildren w.services.db parent + new.countP (isChild parent)) (w.calls.set i (spawn, r.2)))
    (hkeys : ∀ key, key ≠ "" → Within (takesKey key) 1
      (w.spawned.countP (isFor w.services.db key) + if spawn.idempotencyKey = key then new.length else 0)
      (w.calls.set i (spawn, r.2))) :
    Good (w.settle i spawn r) := by
  refine ⟨hgrows.gapless, hgrows.shows, hgrows.known h.known, fun c hc => ?_, fun parent => ?_,
    fun key hkey => (hkeys key hkey).congr ?_⟩
  · rw [World.settle, hgrows.added_eq] at hc
    rcases mem_append.mp hc with hc | hc
    · exact hgrows.taskIds_subset (h.listed c hc)
    · obtain ⟨t, ht, rfl⟩ := mem_map.mp hc
      obtain ⟨f, hrows, -⟩ := hgrows.rows
      refine mem_map_of_mem (f := TaskRow.taskId) ?_
      show t ∈ r.1.db.projections.tasks
      rw [hrows]
      exact mem_append_right _ ht
  · show Within (takesSlot parent) r.1.maxChildren _ _
    rw [hmax]
    exact (hslots parent).congr (hgrows.liveChildren_le parent)
  · rw [World.settle, hgrows.added_eq]
    rw [countP_append, countP_map]
    refine Nat.add_le_add (hgrows.countP_isFor_le h.listed key) ?_
    split_ifs with hsame
    · exact countP_le_length
    · refine Nat.le_of_eq (countP_eq_zero.mpr (fun t _ hfor => ?_))
      exact hsame (of_decide_eq_true hfor).1

/-- **The creation of a child.**  The call uses the slot and the key that it holds. -/
theorem Good.create (h : Good w) {session : String}
    (hcall : w.calls[i]? = some (spawn, .create session)) (json : Jsonl.Codec AgentNode) (turn : Turn) :
    Good (w.settle i spawn (w.services.advance spawn json turn (.create session))) := by
  obtain ⟨new, hgrows, hnew⟩ := advance_grows h.gapless h.shows json spawn turn (.create session)
  have hpast : pastCreate (w.services.advance spawn json turn (.create session)).2 = true :=
    pastCreate_create session
  obtain ⟨hslot, hkey⟩ := afterCount_pastCreate hpast
  have hone : new.length ≤ 1 := by
    rcases hnew with rfl | ⟨-, t, rfl, -⟩
    · exact Nat.zero_le 1
    · exact Nat.le_refl 1
  refine h.settle (advance_maxChildren _) hgrows (fun parent => ?_) (fun key hne => ?_)
  · by_cases hparent : spawn.parentTaskId = parent
    · refine (h.slots parent).use hcall (takesSlot_iff.mpr ⟨hparent, rfl⟩) ?_ ?_
      · rw [takesSlot, hslot, Bool.and_false]
      · exact Nat.add_le_add_left (Nat.le_trans countP_le_length hone) _
    · have hnone : new.countP (isChild parent) = 0 := by
        rcases hnew with rfl | ⟨-, t, rfl, ht⟩
        · rfl
        · refine countP_eq_zero.mpr (fun t' ht' hchild => ?_)
          rw [mem_singleton.mp ht'] at hchild
          exact hparent (Option.some.inj (ht.symm.trans (of_decide_eq_true hchild).1))
      refine (h.slots parent).keep hcall (fun htakes => absurd (takesSlot_iff.mp htakes).1 hparent) ?_
      rw [hnone]
      exact Nat.le_refl _
  · by_cases hsame : spawn.idempotencyKey = key
    · rw [if_pos hsame]
      refine (h.keys key hne).use hcall (takesKey_iff.mpr ⟨hsame, rfl⟩) ?_ ?_
      · rw [takesKey, hkey, Bool.and_false]
      · exact Nat.add_le_add_left hone _
    · rw [if_neg hsame]
      exact (h.keys key hne).keep hcall (fun htakes => absurd (takesKey_iff.mp htakes).1 hsame)
        (Nat.le_refl _)

/-- **The other phases.**  A count takes a slot and a lookup takes a key, if they are clear. -/
theorem Good.advance (h : Good w) (hcall : w.calls[i]? = some (spawn, phase))
    (hother : ∀ session, phase ≠ .create session) (hclear : ClearPhase w spawn phase)
    (json : Jsonl.Codec AgentNode) (turn : Turn) :
    Good (w.settle i spawn (w.services.advance spawn json turn phase)) := by
  obtain ⟨new, hgrows, rfl | ⟨⟨session, hsession⟩, -⟩⟩ :=
    advance_grows h.gapless h.shows json spawn turn phase
  swap
  · exact absurd hsession (hother session)
  refine h.settle (advance_maxChildren _) hgrows (fun parent => ?_) (fun key hne => ?_)
  · by_cases htakes : takesSlot parent (spawn, (w.services.advance spawn json turn phase).2) = true
    · obtain ⟨rfl, hcount⟩ := takesSlot_iff.mp htakes
      obtain ⟨session, rfl, hlt⟩ := afterCount_advance hcount
      obtain ⟨hfree, hqueued⟩ : ClearCount w spawn.parentTaskId := hclear
      exact Within.reserve hcall hfree (Nat.lt_of_le_of_lt (liveChildren_le_active h.known hqueued) hlt)
    · exact (h.slots parent).keep hcall (fun ht => absurd ht htakes) (Nat.le_refl _)
  · rw [length_nil, ite_self]
    by_cases htakes : takesKey key (spawn, (w.services.advance spawn json turn phase).2) = true
    · obtain ⟨rfl, hlookup⟩ := takesKey_iff.mp htakes
      rcases afterLookup_advance hlookup with ⟨rfl, hfound⟩ | hbefore
      · obtain ⟨hfree, hfinds⟩ : (∀ call ∈ w.calls, takesKey spawn.idempotencyKey call = false) ∧ _ :=
          (hclear : ClearLookup w spawn.idempotencyKey) hne
        refine Within.reserve hcall hfree ?_
        have hzero : w.spawned.countP (isFor w.services.db spawn.idempotencyKey) = 0 := by
          refine countP_eq_zero.mpr (fun c hc hfor => ?_)
          have hsome := hfinds c hc hfor
          rw [hfound.resolve_left hne] at hsome
          cases hsome
        rw [hzero]
        exact Nat.one_pos
      · exact (h.keys _ hne).keep hcall (fun _ => takesKey_iff.mpr ⟨rfl, hbefore⟩) (Nat.le_refl _)
    · exact (h.keys key hne).keep hcall (fun ht => absurd ht htakes) (Nat.le_refl _)

end Advance

theorem good_step (json : Jsonl.Codec AgentNode) (h : Good w) (e : Event) (hclear : Clear w e) :
    Good (step json w e).1 := by
  cases e with
  | begin spawn => exact h.begin spawn
  | command command o => exact h.command o hclear
  | advance i turn =>
    rw [step]
    cases hcall : w.calls[i]? with
    | none => exact h
    | some call =>
      obtain ⟨spawn, phase⟩ := call
      have hphase : ClearPhase w spawn phase := hclear (spawn, phase) hcall
      by_cases hcreate : ∃ session, phase = .create session
      · obtain ⟨session, rfl⟩ := hcreate
        exact h.create hcall json turn
      · exact h.advance hcall (fun session hc => hcreate ⟨session, hc⟩) hphase json turn

/-- **The bounds hold in every state of a run of clear steps.** -/
theorem bounded_run (json : Jsonl.Codec AgentNode) (fleet : Option FleetStore) (maxChildren : Nat)
    (es : List Event) (h : Admits (step json) Clear (start fleet maxChildren) es) :
    Bounded (run (step json) (start fleet maxChildren) es) := by
  have hgood : Good (run (step json) (start fleet maxChildren) es) :=
    (path_of_admits es h).invariant (good_start fleet maxChildren)
      (fun _ e hw hclear => good_step json hw e hclear)
  exact hgood.bounded

/-! ### Two calls that race -/

def evalCommand (db : Db) (payload : CommandPayload) (turn : Turn) :
    Db × Except SpawnError (Option String) :=
  if turn.fault = .store then (db, .error .fault)
  else
    match evalCall db (turn.command payload, turn.oracle) with
    | (db, .ok (.applied ids)) => (db, aggregateOfFirst db ids turn.fault)
    | (db, .ok (.replayed ids)) => (db, aggregateOfFirst db ids turn.fault)
    | (db, .ok (.rejected reason)) => (db, .error (.rejected reason))
    | (db, .error e) => (db, .error (.store e))

theorem executeCommand_eq : executeCommand = evalCommand := by
  funext db payload turn
  rw [executeCommand, evalCommand, execute_eq_evalCall]
  rfl

def evalCreate (s : Services) (spawn : SpawnAgentCommand) (session : String) (turn : Turn) :
    Services × Phase :=
  match (Id.parse session : Option SessionId) with
  | none => (s, .done (.error .session))
  | some sessionId =>
    match evalCommand s.db (Services.createPayload spawn sessionId) turn with
    | (db, .error e) => ({ s with db := db }, .done (.error e))
    | (db, .ok none) => ({ s with db := db }, Services.refuse "child task creation produced no event")
    | (db, .ok (some child)) => ({ s with db := db }, .node child)

theorem create_eq : Services.create = evalCreate := by
  funext s spawn session turn
  unfold Services.create evalCreate
  rewrite [executeCommand_eq]
  rfl

def evalMove (s : Services) (child : String) (payload : CommandPayload) (next : Db → Phase)
    (turn : Turn) : Services × Phase :=
  match evalCommand s.db payload turn with
  | (db, .error e) => ({ s with db := db }, .release child e)
  | (db, .ok _) => ({ s with db := db }, next db)

theorem moveChild_eq : Services.moveChild = evalMove := by
  funext s child payload next turn
  unfold Services.moveChild evalMove
  rewrite [executeCommand_eq]
  rfl

def evalStep (json : Jsonl.Codec AgentNode) (w : World) : Event → World × Unit
  | .begin spawn => step json w (.begin spawn)
  | .advance i turn =>
    match w.calls[i]? with
    | some (spawn, .create session) =>
      (w.settle i spawn (evalCreate w.services spawn session turn), ())
    | some (spawn, .queue child) =>
      (w.settle i spawn (evalMove w.services child (.queueTask (Services.parseTaskId child turn))
        (fun _ => .start child) turn), ())
    | some (spawn, .start child) =>
      (w.settle i spawn (evalMove w.services child (.startTask (Services.parseTaskId child turn))
        (fun db => .done (.ok (taskView db child))) turn), ())
    | _ => step json w (.advance i turn)
  | .command command o =>
    ({ w with services := { w.services with db := (evalCall w.services.db (command, o)).1 } }, ())

theorem step_eq_evalStep (json : Jsonl.Codec AgentNode) : step json = evalStep json := by
  funext w e
  cases e with
  | begin spawn => rfl
  | command command o => rw [step, evalStep, execute_eq_evalCall]
  | advance i turn =>
    rw [evalStep]
    split
    · next spawn session hcall => rw [step, hcall, ← create_eq]; rfl
    · next spawn child hcall => rw [step, hcall, ← moveChild_eq]; rfl
    · next spawn child hcall => rw [step, hcall, ← moveChild_eq]; rfl
    · rfl

instance {w : World} {spawn : SpawnAgentCommand} : ∀ {phase : Phase}, Decidable (ClearPhase w spawn phase)
  | .lookup => inferInstanceAs (Decidable (_ → _ ∧ _))
  | .count _ => inferInstanceAs (Decidable (_ ∧ _))
  | .parent | .create _ | .node _ | .acquire _ | .queue _ | .start _ | .release _ _ | .cancel _ _
  | .done _ | .panicked => .isTrue trivial

instance {w : World} : ∀ {e : Event}, Decidable (Clear w e)
  | .begin _ => .isTrue trivial
  | .advance _ _ => inferInstanceAs (Decidable (∀ call ∈ _, _))
  | .command _ _ => inferInstanceAs (Decidable (_ = true))

def parentStarted : List Event :=
  (sampleCalls [.createSession "s", .createTask ⟨.ofNat 0⟩ "parent" "prompt" none none none,
    .queueTask ⟨.ofNat 3⟩, .startTask ⟨.ofNat 3⟩]).map (fun call => .command call.1 call.2)

/-- A call that looks up its key, checks its parent, and counts. -/
def checks (i : Nat) : List Event := List.replicate 3 (.advance i (sampleTurn 9))

/-- Two calls that check before either creates its child. -/
def race : List Event :=
  parentStarted ++ .begin overlappingSpawn :: .begin overlappingSpawn :: checks 0 ++ checks 1
    ++ [.advance 0 (sampleTurn 10), .advance 1 (sampleTurn 11)]

/-- A call that creates its child, records it, takes its scope, and queues and starts it. -/
def spawns (i n : Nat) : List Event :=
  [.advance i (sampleTurn n), .advance i (sampleTurn (n + 1)), .advance i (sampleTurn (n + 2)),
    .advance i (sampleTurn (n + 3)), .advance i (sampleTurn (n + 4))]

def secondSpawn : SpawnAgentCommand :=
  { overlappingSpawn with writeScope := "docs/guide.md", idempotencyKey := "other" }

/-- Two calls of one parent, and one that repeats the key of the first. -/
def twoAndRepeated : List Event :=
  parentStarted ++ .begin overlappingSpawn :: .begin secondSpawn :: checks 0 ++ spawns 0 10
    ++ .begin overlappingSpawn :: checks 1 ++ .advance 2 (sampleTurn 9) :: spawns 1 20

/-- The child that a call is answered. -/
def answered : Phase → Option String
  | .done (.ok view) => view.map TaskView.taskId
  | _ => none

/-- The two children are those that the maximum allows, and the repeated call has the first. -/
theorem bounded_run_repeated :
    liveChildren (run (step nodeJson) (start (some emptyFleet) 2) twoAndRepeated).services.db
        overlappingSpawn.parentTaskId = 2 ∧
      (run (step nodeJson) (start (some emptyFleet) 2) twoAndRepeated).calls.map (answered ·.2)
        = [30, 60, 30].map (fun n => some (Id.toText (⟨.ofNat n⟩ : TaskId))) ∧
      Bounded (run (step nodeJson) (start (some emptyFleet) 2) twoAndRepeated) := by
  have hfacts : (liveChildren
        (run (evalStep nodeJson) (start (some emptyFleet) 2) twoAndRepeated).services.db
        overlappingSpawn.parentTaskId = 2 ∧
      (run (evalStep nodeJson) (start (some emptyFleet) 2) twoAndRepeated).calls.map (answered ·.2)
        = [30, 60, 30].map (fun n => some (Id.toText (⟨.ofNat n⟩ : TaskId)))) ∧
      Admits (evalStep nodeJson) Clear (start (some emptyFleet) 2) twoAndRepeated := by
    decide +kernel
  rw [← step_eq_evalStep] at hfacts
  exact ⟨hfacts.1.1, hfacts.1.2, bounded_run nodeJson _ 2 twoAndRepeated hfacts.2⟩

/-- **Two children where the maximum is one, both for one key.** -/
theorem not_bounded_race :
    (run (step nodeJson) (start (some emptyFleet) 1) race).services.maxChildren
        < liveChildren (run (step nodeJson) (start (some emptyFleet) 1) race).services.db
          overlappingSpawn.parentTaskId ∧
      (∃ c ∈ (run (step nodeJson) (start (some emptyFleet) 1) race).spawned,
        ∃ c' ∈ (run (step nodeJson) (start (some emptyFleet) 1) race).spawned, c.2 ≠ c'.2 ∧
          isFor (run (step nodeJson) (start (some emptyFleet) 1) race).services.db "key" c = true ∧
          isFor (run (step nodeJson) (start (some emptyFleet) 1) race).services.db "key" c' = true) ∧
      ¬ Bounded (run (step nodeJson) (start (some emptyFleet) 1) race) := by
  have hfacts : (run (evalStep nodeJson) (start (some emptyFleet) 1) race).services.maxChildren
        < liveChildren (run (evalStep nodeJson) (start (some emptyFleet) 1) race).services.db
          overlappingSpawn.parentTaskId ∧
      ∃ c ∈ (run (evalStep nodeJson) (start (some emptyFleet) 1) race).spawned,
        ∃ c' ∈ (run (evalStep nodeJson) (start (some emptyFleet) 1) race).spawned, c.2 ≠ c'.2 ∧
          isFor (run (evalStep nodeJson) (start (some emptyFleet) 1) race).services.db "key" c = true ∧
          isFor (run (evalStep nodeJson) (start (some emptyFleet) 1) race).services.db "key" c'
            = true := by
    decide +kernel
  rw [← step_eq_evalStep] at hfacts
  exact ⟨hfacts.1, hfacts.2, fun hb => Nat.not_lt.mpr (hb.children _) hfacts.1⟩

end Capacity

end Fleet

end Modbit
