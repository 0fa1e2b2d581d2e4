import Modbit.Lib.Run
import Modbit.Lib.Sha256
import Mathlib.Data.List.Induction

/-!
# Epochs of a compacted history

An epoch is what a model is shown of a history up to a base revision.  `create` and `compact`
register one, `forkOrRevert` marks those whose base is ahead of the new head, and `apply` looks one
up by its id and refuses it if it is marked.

The id is made from the projection alone, and the first epoch with an id is the one that is found.
`applied_iff` says in which runs every epoch is found as itself all the same.
-/

namespace Modbit

open Lib List

namespace Compaction

structure ContextEpoch where
  epochId : String
  baseRevision : UInt64
  parentEpoch : Option String
  projectionDigest : String
  supersededBy : Option String
  deriving DecidableEq

inductive EpochError where
  | invalidated (epochId reason : String)
  | unknownEpoch (epochId : String)
  deriving DecidableEq

structure EpochRegistry where
  epochs : List ContextEpoch
  deriving DecidableEq

/-- The id is of the first twelve digits of the projection's digest. -/
def epochIdOf (projection : List UInt8) : String :=
  "epoch-" ++ String.ofList ((Sha256.hex projection).toList.take 12)

def ContextEpoch.new (base : UInt64) (parent : Option String) (projection : List UInt8) :
    ContextEpoch :=
  ⟨epochIdOf projection, base, parent, Sha256.hex projection, none⟩

namespace EpochRegistry

def new : EpochRegistry := ⟨[]⟩

def lookup (r : EpochRegistry) (epochId : String) : Option ContextEpoch :=
  r.epochs.find? (fun e => e.epochId = epochId)

def requireLive (r : EpochRegistry) (epochId : String) : Except EpochError Unit :=
  match r.lookup epochId with
  | none => .error (.unknownEpoch epochId)
  | some e =>
    match e.supersededBy with
    | some reason => .error (.invalidated epochId reason)
    | none => .ok ()

def register (r : EpochRegistry) (e : ContextEpoch) : EpochRegistry := ⟨r.epochs ++ [e]⟩

def create (r : EpochRegistry) (base : UInt64) (projection : List UInt8) :
    EpochRegistry × ContextEpoch :=
  let e := ContextEpoch.new base none projection
  (r.register e, e)

def compact (r : EpochRegistry) (parentId : String) (base : UInt64) (projection : List UInt8) :
    EpochRegistry × Except EpochError ContextEpoch :=
  match r.requireLive parentId with
  | .error e => (r, .error e)
  | .ok () =>
    let e := ContextEpoch.new base (some parentId) projection
    (r.register e, .ok e)

/-- An epoch that is live and ahead of the new head. -/
def stale (newRevision : UInt64) (e : ContextEpoch) : Bool :=
  e.supersededBy.isNone && e.baseRevision > newRevision

def supersede (newRevision : UInt64) (cause : String) (e : ContextEpoch) : ContextEpoch :=
  if stale newRevision e then { e with supersededBy := some cause } else e

def forkOrRevert (r : EpochRegistry) (newRevision : UInt64) (cause : String) :
    EpochRegistry × List String :=
  (⟨r.epochs.map (supersede newRevision cause)⟩,
    (r.epochs.filter (stale newRevision)).map (·.epochId))

def apply (r : EpochRegistry) (epochId : String) : Except EpochError ContextEpoch :=
  match r.requireLive epochId with
  | .error e => .error e
  | .ok () =>
    match r.lookup epochId with
    | some e => .ok e
    | none => .error (.unknownEpoch epochId)

end EpochRegistry

/-! ### Calls -/

inductive EpochCall where
  | create (base : UInt64) (projection : List UInt8)
  | compact (parentId : String) (base : UInt64) (projection : List UInt8)
  | forkOrRevert (newRevision : UInt64) (cause : String)
  deriving DecidableEq

inductive EpochReply where
  | epoch (e : ContextEpoch)
  | refused (e : EpochError)
  | invalidated (epochIds : List String)
  deriving DecidableEq

namespace EpochRegistry

def step (r : EpochRegistry) : EpochCall → EpochRegistry × EpochReply
  | .create base projection =>
    let out := r.create base projection
    (out.1, .epoch out.2)
  | .compact parentId base projection =>
    match r.compact parentId base projection with
    | (r', .ok e) => (r', .epoch e)
    | (r', .error e) => (r', .refused e)
  | .forkOrRevert newRevision cause =>
    let out := r.forkOrRevert newRevision cause
    (out.1, .invalidated out.2)

def after (calls : List EpochCall) : EpochRegistry := run step new calls

/-- One of the calls moves the head below a revision. -/
def MovedBelow (base : UInt64) (calls : List EpochCall) : Prop :=
  ∃ newRevision cause, EpochCall.forkOrRevert newRevision cause ∈ calls ∧ newRevision < base

/-- What is expected of a registry: an epoch that was returned is applied as itself until the head
is moved below its base, and is refused from then on. -/
structure Applied (calls : List EpochCall) : Prop where
  live : ∀ before call later e, before ++ call :: later <+: calls →
    (step (after before) call).2 = .epoch e → ¬ MovedBelow e.baseRevision later →
    ∃ found, (after (before ++ call :: later)).apply e.epochId = .ok found ∧
      found.baseRevision = e.baseRevision ∧ found.parentEpoch = e.parentEpoch
  refused : ∀ before call later e, before ++ call :: later <+: calls →
    (step (after before) call).2 = .epoch e → MovedBelow e.baseRevision later →
    ∃ reason, (after (before ++ call :: later)).apply e.epochId =
      .error (.invalidated e.epochId reason)

/-- A new epoch whose id was there before is like the first one with it, which is live. -/
def Alike (r : EpochRegistry) (call : EpochCall) : Prop :=
  ∀ e first, (step r call).2 = .epoch e → r.lookup e.epochId = some first →
    first.supersededBy = none ∧ first.baseRevision = e.baseRevision ∧
      first.parentEpoch = e.parentEpoch

/-! ### What is found under an id -/

variable {r r' : EpochRegistry} {call : EpochCall} {e first : ContextEpoch} {id : String}

theorem apply_of_live (h : r.lookup id = some first) (hlive : first.supersededBy = none) :
    r.apply id = .ok first := by
  have hrequire : r.requireLive id = .ok () := by
    rw [requireLive, h]
    dsimp only
    rw [hlive]
  rw [apply, hrequire, h]

theorem apply_of_superseded {reason : String} (h : r.lookup id = some first)
    (hsuperseded : first.supersededBy = some reason) :
    r.apply id = .error (.invalidated id reason) := by
  have hrequire : r.requireLive id = .error (.invalidated id reason) := by
    rw [requireLive, h]
    dsimp only
    rw [hsuperseded]
  rw [apply, hrequire]

theorem lookup_register (r : EpochRegistry) (e : ContextEpoch) (id : String) :
    (r.register e).lookup id = (r.lookup id).or (if e.epochId = id then some e else none) := by
  rw [lookup, register, find?_append, lookup, find?_singleton]
  by_cases he : e.epochId = id
  · rw [if_pos he, if_pos (decide_eq_true he)]
  · rw [if_neg he, if_neg (by rw [decide_eq_true_eq]; exact he)]

theorem epochId_supersede (newRevision : UInt64) (cause : String) (e : ContextEpoch) :
    (supersede newRevision cause e).epochId = e.epochId := by
  rw [supersede]
  split <;> rfl

theorem lookup_forkOrRevert (r : EpochRegistry) (newRevision : UInt64) (cause : String)
    (id : String) :
    (r.forkOrRevert newRevision cause).1.lookup id =
      (r.lookup id).map (supersede newRevision cause) := by
  rw [forkOrRevert, lookup, lookup, find?_map]
  congr 2
  funext e
  rw [Function.comp_apply, epochId_supersede]

theorem step_cases (r : EpochRegistry) (call : EpochCall) :
    (∃ e, step r call = (r.register e, .epoch e) ∧ e.supersededBy = none ∧
      ∀ newRevision cause, call ≠ .forkOrRevert newRevision cause) ∨
    (∃ newRevision cause, call = .forkOrRevert newRevision cause ∧
      step r call = ((r.forkOrRevert newRevision cause).1,
        .invalidated (r.forkOrRevert newRevision cause).2)) ∨
    (∃ err, step r call = (r, .refused err) ∧
      ∀ newRevision cause, call ≠ .forkOrRevert newRevision cause) := by
  cases call with
  | create base projection =>
    exact Or.inl ⟨_, rfl, rfl, fun _ _ h => by cases h⟩
  | compact parentId base projection =>
    rw [step, compact]
    cases r.requireLive parentId with
    | error err => exact Or.inr (Or.inr ⟨err, rfl, fun _ _ h => by cases h⟩)
    | ok u => exact Or.inl ⟨_, rfl, rfl, fun _ _ h => by cases h⟩
  | forkOrRevert newRevision cause => exact Or.inr (Or.inl ⟨newRevision, cause, rfl, rfl⟩)

/-- An epoch as it was returned, and what is found under its id: the same base and parent, and a
mark if the head was moved below the base. -/
structure Found (r : EpochRegistry) (e : ContextEpoch) (later : List EpochCall)
    (first : ContextEpoch) : Prop where
  lookup : r.lookup e.epochId = some first
  base : first.baseRevision = e.baseRevision
  parent : first.parentEpoch = e.parentEpoch
  marked : first.supersededBy.isSome ↔ MovedBelow e.baseRevision later

variable {later : List EpochCall}

theorem movedBelow_concat {base : UInt64} :
    MovedBelow base (later ++ [call]) ↔ MovedBelow base later ∨
      ∃ newRevision cause, call = .forkOrRevert newRevision cause ∧ newRevision < base := by
  constructor
  · rintro ⟨newRevision, cause, hmem, hlt⟩
    rcases mem_append.mp hmem with hmem | hmem
    · exact Or.inl ⟨newRevision, cause, hmem, hlt⟩
    · exact Or.inr ⟨newRevision, cause, (mem_singleton.mp hmem).symm, hlt⟩
  · rintro (⟨newRevision, cause, hmem, hlt⟩ | ⟨newRevision, cause, rfl, hlt⟩)
    · exact ⟨newRevision, cause, mem_append_left _ hmem, hlt⟩
    · exact ⟨newRevision, cause, mem_append_right _ mem_cons_self, hlt⟩

theorem Found.step (h : Found r e later first) (call : EpochCall) :
    ∃ first', Found (EpochRegistry.step r call).1 e (later ++ [call]) first' := by
  rcases step_cases r call with ⟨new, hstep, -, hcall⟩ | ⟨newRevision, cause, rfl, hstep⟩ |
    ⟨err, hstep, hcall⟩
  · refine ⟨first, ?_, h.base, h.parent, ?_⟩
    · rw [hstep, lookup_register, h.lookup, Option.some_or]
    · rw [h.marked, movedBelow_concat]
      refine ⟨Or.inl, fun hmoved => hmoved.resolve_right ?_⟩
      rintro ⟨newRevision, cause, heq, -⟩
      exact hcall newRevision cause heq
  · refine ⟨supersede newRevision cause first, ?_, ?_, ?_, ?_⟩
    · rw [hstep, lookup_forkOrRevert, h.lookup, Option.map_some]
    · rw [supersede, ← h.base]
      split <;> rfl
    · rw [supersede, ← h.parent]
      split <;> rfl
    · rw [movedBelow_concat, ← h.marked, supersede]
      cases hmark : first.supersededBy with
      | some reason =>
        rw [stale, hmark, Option.isNone_some, Bool.false_and, if_neg Bool.false_ne_true, hmark]
        exact ⟨Or.inl, fun _ => rfl⟩
      | none =>
        rw [stale, hmark, Option.isNone_none, Bool.true_and, h.base]
        by_cases hlt : newRevision < e.baseRevision
        · rw [if_pos (decide_eq_true hlt)]
          exact ⟨fun _ => Or.inr ⟨newRevision, cause, rfl, hlt⟩, fun _ => rfl⟩
        · rw [if_neg (by rw [decide_eq_true_eq]; exact hlt), hmark]
          refine ⟨fun hsome => Or.inl hsome, ?_⟩
          rintro (hsome | ⟨newRevision', cause', heq, hlt'⟩)
          · exact hsome
          · cases heq
            exact absurd hlt' hlt
  · refine ⟨first, ?_, h.base, h.parent, ?_⟩
    · rw [hstep]
      exact h.lookup
    · rw [h.marked, movedBelow_concat]
      refine ⟨Or.inl, fun hmoved => hmoved.resolve_right ?_⟩
      rintro ⟨newRevision, cause, heq, -⟩
      exact hcall newRevision cause heq

/-! ### Runs -/

theorem after_concat (calls : List EpochCall) (call : EpochCall) :
    after (calls ++ [call]) = (step (after calls) call).1 := by
  rw [after, run_append, run_cons, run_nil]
  rfl

theorem not_movedBelow_nil {base : UInt64} : ¬ MovedBelow base [] := by
  rintro ⟨newRevision, cause, hmem, -⟩
  exact not_mem_nil hmem

theorem found_of_alike (halike : Alike r call) (hreply : (step r call).2 = .epoch e) :
    ∃ first, Found (step r call).1 e [] first := by
  rcases step_cases r call with ⟨new, hstep, hlive, -⟩ | ⟨newRevision, cause, -, hstep⟩ |
    ⟨err, hstep, -⟩
  · rw [hstep] at hreply ⊢
    cases hreply
    have hlookup := lookup_register r e e.epochId
    rw [if_pos rfl] at hlookup
    cases hfirst : r.lookup e.epochId with
    | some first =>
      obtain ⟨hmark, hbase, hparent⟩ := halike e first (by rw [hstep]) hfirst
      rw [hfirst, Option.some_or] at hlookup
      refine ⟨first, hlookup, hbase, hparent, iff_of_false ?_ not_movedBelow_nil⟩
      rw [hmark]
      exact Bool.false_ne_true
    | none =>
      rw [hfirst, Option.none_or] at hlookup
      refine ⟨e, hlookup, rfl, rfl, iff_of_false ?_ not_movedBelow_nil⟩
      rw [hlive]
      exact Bool.false_ne_true
  · rw [hstep] at hreply
    cases hreply
  · rw [hstep] at hreply
    cases hreply

theorem found_after {before later : List EpochCall} (halike : Alike (after before) call)
    (hreply : (step (after before) call).2 = .epoch e) :
    ∃ first, Found (after (before ++ call :: later)) e later first := by
  induction later using List.reverseRecOn with
  | nil =>
    rw [after_concat]
    exact found_of_alike halike hreply
  | append_singleton later c ih =>
    obtain ⟨first, hfound⟩ := ih
    rw [← cons_append, ← append_assoc, after_concat]
    exact hfound.step c

theorem alike_of_applied {calls before : List EpochCall} (h : Applied calls)
    (hpre : before ++ [call] <+: calls) : Alike (after before) call := by
  intro e first hreply hfirst
  obtain ⟨found, happly, hbase, hparent⟩ := h.live before call [] e hpre hreply not_movedBelow_nil
  -- the epoch of before is still the first
  have hlookup : (after (before ++ [call])).lookup e.epochId = some first := by
    rw [after_concat]
    rcases step_cases (after before) call with ⟨new, hstep, -, -⟩ | ⟨newRevision, cause, -, hstep⟩ |
      ⟨err, hstep, -⟩
    · rw [hstep, lookup_register, hfirst, Option.some_or]
    · rw [hstep] at hreply
      cases hreply
    · rw [hstep] at hreply
      cases hreply
  cases hmark : first.supersededBy with
  | some reason =>
    rw [apply_of_superseded hlookup hmark] at happly
    cases happly
  | none =>
    rw [apply_of_live hlookup hmark] at happly
    cases happly
    exact ⟨rfl, hbase, hparent⟩

/-- **Every epoch of a run is found as itself exactly when each new one is like the first one with
its id, which has to be live.** -/
theorem applied_iff (calls : List EpochCall) :
    Applied calls ↔ ∀ before call, before ++ [call] <+: calls → Alike (after before) call := by
  constructor
  · exact fun h before call hpre => alike_of_applied h hpre
  · intro h
    have hfound : ∀ before call later e, before ++ call :: later <+: calls →
        (step (after before) call).2 = .epoch e →
        ∃ first, Found (after (before ++ call :: later)) e later first := by
      intro before call later e hpre hreply
      refine found_after (h before call (List.IsPrefix.trans ?_ hpre)) hreply
      exact ⟨later, by rw [append_assoc, singleton_append]⟩
    constructor
    · intro before call later e hpre hreply hunmoved
      obtain ⟨first, hfirst⟩ := hfound before call later e hpre hreply
      refine ⟨first, apply_of_live hfirst.lookup ?_, hfirst.base, hfirst.parent⟩
      rw [← Option.not_isSome_iff_eq_none]
      exact fun hsome => hunmoved (hfirst.marked.mp hsome)
    · intro before call later e hpre hreply hmoved
      obtain ⟨first, hfirst⟩ := hfound before call later e hpre hreply
      obtain ⟨reason, hreason⟩ := Option.isSome_iff_exists.mp (hfirst.marked.mpr hmoved)
      exact ⟨reason, apply_of_superseded hfirst.lookup hreason⟩

/-- Two epochs of one projection: the later one is taken for the earlier. -/
theorem epoch_taken_for_other : ¬ ∀ calls, Applied calls := by
  intro h
  have halike : Alike (after [.create 5 []]) (.create 9 []) :=
    alike_of_applied (h [.create 5 [], .create 9 []]) (prefix_refl _)
  have hsame := halike (ContextEpoch.new 9 none []) (ContextEpoch.new 5 none []) rfl
    (find?_cons_of_pos (decide_eq_true rfl))
  exact absurd hsame.2.1 (by decide)

end EpochRegistry

end Compaction

end Modbit
