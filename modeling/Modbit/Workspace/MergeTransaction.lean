import Modbit.Lib.Interrupt
import Modbit.Lib.OrdMap
import Modbit.Lib.Run
import Mathlib.Data.String.Basic

/-!
# Merge transactions

A merge between two branches is a record on disk with a phase.  `openAndMerge` writes it
before the merge is started and again once the outcome is known, `recordResolution` and
`rollback` write it after the git commands that conclude or unwind the merge.

Git is the heads of the branches, the branch that is checked out and the merge that is
live, if there is one.  What its commands find in the files, and which steps of a call fail
or are not reached because the process stops, comes with each call as its `Env`.  A site
names one step of one call.
-/

namespace Modbit

open Lib

namespace Workspace

/-! ### The record -/

/-- A commit is what it was made from, so that it is never its own parent. -/
inductive Commit where
  | root (message : String)
  | change (message : String) (parent : Commit)
  | merge (message : String) (parent merged : Commit)
  deriving DecidableEq

inductive MergePhase where
  | opened | conflicted | validating | committed | rolledBack
  deriving DecidableEq

structure ConflictResolution where
  path : String
  strategy : String
  deriving DecidableEq

/-- An empty string in the source, for a commit not known yet, is `none`. -/
structure MergeTransaction where
  transactionId : String
  sourceBranch : String
  targetBranch : String
  baseCommit : Option Commit
  targetHead : Option Commit
  phase : MergePhase
  conflicts : List String
  resolutions : List ConflictResolution
  validation : List (String × Bool)
  commitSha : Option Commit
  deriving DecidableEq

def MergeTransaction.new (transactionId sourceBranch targetBranch : String) : MergeTransaction :=
  ⟨transactionId, sourceBranch, targetBranch, none, none, .opened, [], [], [], none⟩

def MergePhase.terminal : MergePhase → Bool
  | .committed | .rolledBack => true
  | .opened | .conflicted | .validating => false

inductive MergeTransactionError where
  | git
  | io
  | alreadyOpen (transactionId : String)
  | noOpenTransaction
  | invalidPhase (phase : MergePhase) (action : String)
  | rollbackIncomplete (reason : String)
  deriving DecidableEq

inductive MergeOutcome where
  | merged
  | conflict (conflictedFiles : List String)
  deriving DecidableEq

/-! ### Git -/

structure LiveMerge where
  source : Commit
  unmerged : List String
  deriving DecidableEq

structure Git where
  heads : OrdMap String Commit
  current : String
  live : Option LiveMerge

/-- What `git merge` finds in the files. -/
inductive MergeResult where
  | clean | upToDate
  | conflict (files : List String)
  deriving DecidableEq

inductive Site where
  | inspect | load | remove | mergeBase | checkout | head | save
  | merge | diff | stage | conclude | abort | reset | headAfter | saveAfter
  deriving DecidableEq

structure Env where
  fault : Site → Fault
  base : Commit
  result : MergeResult

/-- The record on disk and the repository.  `archived` are the records that a later
transaction has taken the place of. -/
structure Repo where
  record : Option MergeTransaction
  archived : List MergeTransaction
  git : Git

abbrev Merging (α : Type) := Act Repo MergeTransactionError α

namespace Git

def tip (g : Git) : Option Commit := g.heads.find? g.current

/-- A command's answer: the repository after it, with an exit code of zero or not. -/
abbrev Answer (α : Type) := Git × Except MergeTransactionError α

def mergeBase (g : Git) (base : Commit) (a b : String) : Answer Commit :=
  match g.heads.find? a, g.heads.find? b with
  | some _, some _ => (g, .ok base)
  | _, _ => (g, .error .git)

/-- A checkout with unmerged files is refused; another forgets the live merge. -/
def checkout (g : Git) (name : String) : Answer Unit :=
  match g.heads.find? name with
  | none => (g, .error .git)
  | some _ =>
    match g.live with
    | some ⟨_, _ :: _⟩ => (g, .error .git)
    | _ => ({ g with current := name, live := none }, .ok ())

def head (g : Git) : Answer Commit :=
  match g.tip with
  | none => (g, .error .git)
  | some c => (g, .ok c)

/-- `git merge --no-ff --no-commit`. -/
def merge (g : Git) (result : MergeResult) (branch : String) : Answer Unit :=
  match g.live, g.heads.find? branch with
  | none, some source =>
    match result with
    | .clean => ({ g with live := some ⟨source, []⟩ }, .ok ())
    | .upToDate => (g, .ok ())
    | .conflict files => ({ g with live := some ⟨source, files⟩ }, .error .git)
  | _, _ => (g, .error .git)

/-- `git diff --name-only --diff-filter=U`. -/
def unmerged (g : Git) : Answer (List String) := (g, .ok ((g.live.map (·.unmerged)).getD []))

/-- `git add -- path`. -/
def stagePath (g : Git) (path : String) : Answer Unit :=
  ({ g with live := g.live.map (fun m => { m with unmerged := m.unmerged.filter (· ≠ path) }) },
    .ok ())

/-- `git commit -m message`; without a live merge it commits what is staged. -/
def commit (g : Git) (message : String) : Answer Unit :=
  match g.live, g.tip with
  | some ⟨_, _ :: _⟩, _ => (g, .error .git)
  | some ⟨source, []⟩, some tip =>
    ({ g with heads := g.heads.insert g.current (.merge message tip source), live := none }, .ok ())
  | none, some tip =>
    ({ g with heads := g.heads.insert g.current (.change message tip) }, .ok ())
  | _, none => ({ g with heads := g.heads.insert g.current (.root message), live := none }, .ok ())

/-- `git merge --abort`. -/
def abortMerge (g : Git) : Answer Unit :=
  match g.live with
  | none => (g, .error .git)
  | some _ => ({ g with live := none }, .ok ())

/-- `git reset --hard target`. -/
def resetHard (g : Git) (target : Option Commit) : Answer Unit :=
  match target with
  | none => (g, .error .git)
  | some c => ({ g with heads := g.heads.insert g.current c, live := none }, .ok ())

end Git

/-! ### Steps -/

def gitStep {α : Type} (env : Env) (site : Site) (command : Git → Git.Answer α) : Merging α :=
  Act.step (env.fault site) .git fun r => ({ r with git := (command r.git).1 }, (command r.git).2)

def load (env : Env) (site : Site) : Merging (Option MergeTransaction) :=
  Act.step (env.fault site) .io fun r => (r, .ok r.record)

/-- `load(repo)?.ok_or(NoOpenTransaction)?`. -/
def loadOpen (env : Env) : Merging MergeTransaction := do
  match ← load env .load with
  | none => Act.fail .noOpenTransaction
  | some tx => pure tx

def save (env : Env) (tx : MergeTransaction) : Merging Unit :=
  Act.step (env.fault .saveAfter) .io fun r => ({ r with record := some tx }, .ok ())

def saveNew (env : Env) (tx : MergeTransaction) : Merging Unit :=
  Act.step (env.fault .save) .io fun r =>
    ({ r with record := some tx, archived := r.archived ++ r.record.toList }, .ok ())

/-- `remove_file`. -/
def removeRecord (env : Env) : Merging Unit :=
  Act.step (env.fault .remove) .io fun r =>
    ({ r with record := none, archived := r.archived ++ r.record.toList }, .ok ())

/-! ### Calls -/

def startMerge (env : Env) (branch : String) : Merging MergeOutcome := do
  match ← Act.attempt (gitStep env .merge (·.merge env.result branch)) with
  | some () => pure .merged
  | none =>
    let files ← Act.attempt (gitStep env .diff (·.unmerged))
    pure (.conflict ((files.getD []).filter (· ≠ "")))

def mergeMessage (tx : MergeTransaction) : String :=
  "merge " ++ tx.sourceBranch ++ " (transaction " ++ tx.transactionId ++ ")"

/-- `conclude_merge`, and the commit it made. -/
def conclude (env : Env) (tx : MergeTransaction) : Merging MergeTransaction := do
  gitStep env .conclude (·.commit (mergeMessage tx))
  let sha ← gitStep env .headAfter (·.head)
  pure { tx with phase := .validating, commitSha := some sha }

/-- The way is free when there is no record, or one of a transaction that has ended. -/
def clearTerminal (env : Env) : Option MergeTransaction → Merging Unit
  | none => pure ()
  | some existing =>
    if existing.phase.terminal then do
      let _ ← Act.attempt (removeRecord env)
      pure ()
    else Act.fail (.alreadyOpen existing.transactionId)

/-- The transaction's phase by the outcome of its merge. -/
def settle (env : Env) (tx : MergeTransaction) : MergeOutcome → Merging MergeTransaction
  | .merged => conclude env tx
  | .conflict files => pure { tx with phase := .conflicted, conflicts := files }

def openAndMerge (env : Env) (transactionId sourceBranch targetBranch : String) :
    Merging (MergeTransaction × MergeOutcome) := do
  clearTerminal env (← load env .load)
  let base ← gitStep env .mergeBase (·.mergeBase env.base sourceBranch targetBranch)
  gitStep env .checkout (·.checkout targetBranch)
  let head ← gitStep env .head (·.head)
  let tx := { MergeTransaction.new transactionId sourceBranch targetBranch with
    baseCommit := some base, targetHead := some head }
  saveNew env tx
  let outcome ← startMerge env sourceBranch
  let tx ← settle env tx outcome
  save env tx
  pure (tx, outcome)

def MergeTransaction.resolved (tx : MergeTransaction) (path strategy : String) : MergeTransaction :=
  { tx with
    resolutions := tx.resolutions ++ [⟨path, strategy⟩]
    conflicts := tx.conflicts.filter (· ≠ path) }

/-- All conflicts resolved: the merge commit is made. -/
def finalize (env : Env) (tx : MergeTransaction) : Merging MergeTransaction :=
  if tx.conflicts = [] then conclude env tx else pure tx

def recordResolution (env : Env) (path strategy : String) : Merging MergeTransaction := do
  let tx ← loadOpen env
  if tx.phase ≠ .conflicted then Act.fail (.invalidPhase tx.phase "record a resolution")
  else
    gitStep env .stage (·.stagePath path)
    let tx ← finalize env (tx.resolved path strategy)
    save env tx
    pure tx

def recordValidation (env : Env) (gate : String) (passed : Bool) : Merging MergeTransaction := do
  let tx ← loadOpen env
  if tx.phase ≠ .validating then Act.fail (.invalidPhase tx.phase "record validation")
  else
    let tx := { tx with validation := tx.validation ++ [(gate, passed)] }
    save env tx
    pure tx

def commit (env : Env) : Merging MergeTransaction := do
  let tx ← loadOpen env
  if tx.phase ≠ .validating then Act.fail (.invalidPhase tx.phase "commit")
  else if tx.validation.any (fun v => !v.2) then
    Act.fail (.invalidPhase tx.phase "commit with failed validations — roll back instead")
  else
    let tx := { tx with phase := .committed }
    save env tx
    pure tx

def unwind (env : Env) (tx : MergeTransaction) : Merging Unit :=
  match tx.phase with
  | .conflicted => gitStep env .abort (·.abortMerge)
  | .validating => gitStep env .reset (·.resetHard tx.targetHead)
  | phase => Act.fail (.invalidPhase phase "roll back")

def rollback (env : Env) : Merging MergeTransaction := do
  let tx ← loadOpen env
  unwind env tx
  let head ← gitStep env .headAfter (·.head)
  if tx.phase = .validating ∧ tx.commitSha = some head then
    Act.fail (.rollbackIncomplete "HEAD still at the merge commit after reset")
  else
    let tx := { tx with phase := .rolledBack }
    save env tx
    pure tx

def recoverMerge (env : Env) : Merging Unit := do
  match ← load env .inspect with
  | none => pure ()
  | some tx =>
    if tx.phase = .conflicted ∨ tx.phase = .validating then do
      let _ ← rollback env
      pure ()
    else pure ()

inductive MergeCall where
  | openAndMerge (transactionId sourceBranch targetBranch : String)
  | recordResolution (path strategy : String)
  | recordValidation (gate : String) (passed : Bool)
  | commit
  | rollback
  | recoverMerge
  deriving DecidableEq

def Repo.step (r : Repo) (c : MergeCall × Env) : Repo × Except (Ended MergeTransactionError) Unit :=
  match c.1 with
  | .openAndMerge id source target => (do let _ ← Workspace.openAndMerge c.2 id source target) r
  | .recordResolution path strategy => (do let _ ← Workspace.recordResolution c.2 path strategy) r
  | .recordValidation gate passed => (do let _ ← Workspace.recordValidation c.2 gate passed) r
  | .commit => (do let _ ← Workspace.commit c.2) r
  | .rollback => (do let _ ← Workspace.rollback c.2) r
  | .recoverMerge => Workspace.recoverMerge c.2 r

end Workspace

end Modbit
