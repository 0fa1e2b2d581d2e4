import Modbit.EventStore.Schema
import Modbit.Lib.Text

/-!
# Write scopes

`crates/event-store/src/write_scopes.rs`: the registry of the paths tasks declare
they write.  `acquire` drops the scopes of terminal tasks, compares the declared
paths with the scopes of the tasks in an active state, and records them.

`SameOrAncestor` is what a comparison is meant to find, on the locations the two paths
lead to.  `covers` compares their texts: `covers_iff` says what it finds on their
components, and `conflicts_iff_of_plain` that this is the same for paths without an
empty, `.` or `..` component.  `acquire_result` lists what an acquisition can do.
-/

namespace Modbit

open Lib List

namespace WriteScopes

def TERMINAL_STATES : List String := ["completed", "failed", "cancelled"]

/-- The list of `active_states_sql`. -/
def activeStates : List String := ["created", "queued", "running", "ready_for_review"]

def covers (a b : String) : Bool :=
  let a := Text.trimEndMatches '/' a
  let b := Text.trimEndMatches '/' b
  a == b || Text.startsWith b (a ++ "/")

def parseScope (spec : String) : List String :=
  ((Text.split ',' spec).map Text.trim).filter (fun s => s ≠ "")

inductive AcquireOutcome where
  | acquired
  | denied (holderTaskId path : String)
deriving DecidableEq

def tasksIn (db : Db) (states : List String) : List String :=
  (db.projections.tasks.filter (fun t => t.state ∈ states)).map TaskRow.taskId

def releaseTerminal (db : Db) : Db :=
  { db with taskWriteScopes :=
      db.taskWriteScopes.filter (fun s => s.taskId ∉ tasksIn db TERMINAL_STATES) }

def release (db : Db) (taskId : String) : Db :=
  { db with taskWriteScopes := db.taskWriteScopes.filter (fun s => s.taskId ≠ taskId) }

/-- The scopes on a repository joined with the tasks in an active state. -/
def heldScopes (db : Db) (repoKey : String) : List WriteScopeRow :=
  db.taskWriteScopes.filter (fun s => s.repoKey = repoKey ∧ s.taskId ∈ tasksIn db activeStates)

def conflicts (path : String) (h : WriteScopeRow) : Bool := covers h.path path || covers path h.path

/-- The first path, and the first holder of a scope that overlaps it. -/
def findConflict (held : List WriteScopeRow) (paths : List String) :
    Option (String × WriteScopeRow) :=
  paths.findSome? (fun path => (held.find? (conflicts path)).map (fun h => (path, h)))

def acquire (db : Db) (taskId repoKey scopeSpec : String) : Db × AcquireOutcome :=
  let paths := parseScope scopeSpec
  if paths = [] then (db, .acquired)
  else
    let pruned := releaseTerminal db
    match findConflict (heldScopes pruned repoKey) paths with
    | some (path, h) => (pruned, .denied h.taskId path)
    | none =>
      let dropped := release pruned taskId
      ({ dropped with taskWriteScopes :=
          dropped.taskWriteScopes ++ paths.map (fun path => ⟨taskId, repoKey, path⟩) }, .acquired)

/-! ### Paths -/

/-- The components of a path, trailing separators aside. -/
def components (path : String) : List (List Char) :=
  (Text.trimEndMatches '/' path).toList.splitOn '/'

variable {a b : String}

/-- **`covers` compares the components.** -/
theorem covers_iff : covers a b = true ↔ components a <+: components b := by
  rw [components, components, Text.splitOn_prefix_iff, covers]
  simp [Text.startsWith, String.ext_iff]

/-- A place below the directory that lies `above` levels over the repository or, for an
absolute path, below the root. -/
structure Location where
  absolute : Bool
  above : Nat
  names : List (List Char)
deriving DecidableEq

def Location.enter (l : Location) (name : List Char) : Location :=
  if name = [] ∨ name = ['.'] then l
  else if name ≠ ['.', '.'] then { l with names := l.names ++ [name] }
  else if l.names ≠ [] then { l with names := l.names.dropLast }
  -- the root is its own parent
  else if l.absolute then l
  else { l with above := l.above + 1 }

/-- Where a path leads, links aside. -/
def location (path : String) : Location :=
  (components path).foldl Location.enter ⟨path.toList.head? = some '/', 0, []⟩

/-- One path is the other or a directory above it. -/
def SameOrAncestor (a b : String) : Prop :=
  (location a).absolute = (location b).absolute ∧
    ((location a).above = (location b).above ∧ (location a).names <+: (location b).names ∨
      (location b).above < (location a).above ∧ (location a).names = [])

/-- Two paths of which one contains the other. -/
def Overlap (a b : String) : Prop := SameOrAncestor a b ∨ SameOrAncestor b a

theorem Overlap.symm (h : Overlap a b) : Overlap b a := Or.symm h

/-- A path that is spelled as it is resolved. -/
def Plain (path : String) : Prop :=
  ∀ name ∈ components path, name ≠ [] ∧ name ≠ ['.'] ∧ name ≠ ['.', '.']

variable {path : String}

theorem Plain.relative (h : Plain path) : path.toList.head? ≠ some '/' := by
  intro hslash
  obtain ⟨rest, hpath⟩ := head?_eq_some_iff.mp hslash
  obtain ⟨cut, hcut⟩ : Text.dropEndWhile (· == '/') path.toList <+: path.toList :=
    reverse_suffix.mp (by
      rw [Text.dropEndWhile, reverse_reverse]
      exact dropWhile_suffix _)
  have hempty : [] ∈ components path := by
    rw [components, Text.trimEndMatches, String.toList_ofList]
    cases htrim : Text.dropEndWhile (· == '/') path.toList with
    | nil => exact mem_singleton_self _
    | cons c l =>
      rw [htrim, hpath] at hcut
      obtain rfl : c = '/' := (List.cons.inj hcut).1
      exact splitOn_append_cons_self [] l ▸ mem_cons_self
  exact (h [] hempty).1 rfl

theorem location_of_plain (h : Plain path) : location path = ⟨false, 0, components path⟩ := by
  have henter : ∀ (names before : List (List Char)),
      (∀ name ∈ names, name ≠ [] ∧ name ≠ ['.'] ∧ name ≠ ['.', '.']) →
      names.foldl Location.enter ⟨false, 0, before⟩ = ⟨false, 0, before ++ names⟩ := by
    intro names
    induction names with
    | nil => exact fun before _ => by rw [append_nil, foldl_nil]
    | cons name names ih =>
      intro before hnames
      obtain ⟨hempty, hdot, hup⟩ := hnames name mem_cons_self
      rw [foldl_cons, Location.enter, if_neg (not_or.mpr ⟨hempty, hdot⟩), if_pos hup,
        ih _ (fun n hn => hnames n (mem_cons_of_mem _ hn)), append_assoc, singleton_append]
  rw [location, decide_eq_false h.relative, henter _ _ h, nil_append]

theorem sameOrAncestor_of_plain (ha : Plain a) (hb : Plain b) :
    SameOrAncestor a b ↔ components a <+: components b := by
  rw [SameOrAncestor, location_of_plain ha, location_of_plain hb]
  simp

/-- **Among plain paths the comparison finds every overlap.** -/
theorem conflicts_iff_of_plain {h : WriteScopeRow} (hp : Plain path)
    (hh : Plain h.path) : conflicts path h = true ↔ Overlap h.path path := by
  rw [conflicts, Bool.or_eq_true, covers_iff, covers_iff, Overlap, sameOrAncestor_of_plain hh hp,
    sameOrAncestor_of_plain hp hh]

/-! ### What an acquisition does -/

theorem findConflict_eq_none {held : List WriteScopeRow} {paths : List String} :
    findConflict held paths = none ↔
      ∀ path ∈ paths, ∀ h ∈ held, ¬ conflicts path h = true := by
  rw [findConflict, findSome?_eq_none_iff]
  refine forall₂_congr (fun path _ => ?_)
  rw [Option.map_eq_none_iff, find?_eq_none]

/-- Nothing declared, an overlap with an active holder, or the declared scopes
recorded in place of the task's old ones. -/
inductive AcquireResult (db : Db) (taskId repoKey scopeSpec : String) : Db × AcquireOutcome → Prop
  | nothing (h : parseScope scopeSpec = []) :
      AcquireResult db taskId repoKey scopeSpec (db, .acquired)
  | denied {path holder : String} :
      AcquireResult db taskId repoKey scopeSpec (releaseTerminal db, .denied holder path)
  | recorded {db' : Db}
      (hfree : ∀ path ∈ parseScope scopeSpec, ∀ h ∈ heldScopes (releaseTerminal db) repoKey,
        ¬ conflicts path h = true)
      (hdb : db' = { db with taskWriteScopes :=
        (release (releaseTerminal db) taskId).taskWriteScopes
          ++ (parseScope scopeSpec).map (fun path => ⟨taskId, repoKey, path⟩) }) :
      AcquireResult db taskId repoKey scopeSpec (db', .acquired)

theorem acquire_result (db : Db) (taskId repoKey scopeSpec : String) :
    AcquireResult db taskId repoKey scopeSpec (acquire db taskId repoKey scopeSpec) := by
  rw [acquire]
  split
  · next h => exact .nothing h
  · simp only
    cases hc : findConflict (heldScopes (releaseTerminal db) repoKey) (parseScope scopeSpec) with
    | some c => exact .denied
    | none => exact .recorded (findConflict_eq_none.mp hc) rfl

theorem acquire_frame (db : Db) (taskId repoKey scopeSpec : String) :
    (acquire db taskId repoKey scopeSpec).1.events = db.events ∧
      (acquire db taskId repoKey scopeSpec).1.projections = db.projections ∧
      (acquire db taskId repoKey scopeSpec).1.sessionLeases = db.sessionLeases := by
  have h := acquire_result db taskId repoKey scopeSpec
  generalize acquire db taskId repoKey scopeSpec = r at h
  cases h with
  | nothing _ => exact ⟨rfl, rfl, rfl⟩
  | denied => exact ⟨rfl, rfl, rfl⟩
  | recorded _ hdb => exact hdb ▸ ⟨rfl, rfl, rfl⟩

end WriteScopes

end Modbit
