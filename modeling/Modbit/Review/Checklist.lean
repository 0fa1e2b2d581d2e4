import Modbit.Fleet.Capacity
import Modbit.Lib.Run
import Modbit.Review.Decisions

/-!
# The review checklist

`review_checklist` of the surface and `crates/core-runtime/src/review.rs`.  A hunk is decided if a
decision was recorded at its path and the line it starts at now.  A hunk that is rejected moves
those behind it, and what was recorded stays where it was.

`checklist_agrees_iff` says when, through a run of decisions, the hunks that are marked are those
that were accepted.  A hunk is known by the line of the base it is at, which no decision changes.
-/

namespace Modbit

open Lib List

namespace Review

/-! ### Items -/

structure HunkInput where
  path : String
  newStart : Nat
  lines : List String
  decided : Bool
  commented : Bool

structure ChecklistItem where
  id : String
  text : String
  done : Bool

def contains (text part : String) : Bool := decide (part.toList <:+: text.toList)

section Generated

variable (lower : String → String)

/-- `lower` is `to_lowercase`. -/
def isTestPath (path : String) : Bool :=
  contains (lower path) "test" || contains (lower path) "spec"
    || decide ("_test.go".toList <:+ (lower path).toList) || Text.startsWith (lower path) "tests/"

def suspicious (line : String) : Option String :=
  let t := Text.trim (String.ofList (line.toList.dropWhile (· ∈ ['+', '-'])))
  if contains t "TODO" || contains t "FIXME" then some "leftover TODO/FIXME"
  else if contains t "unwrap()" then some "unwrap() that may panic"
  else if contains t "dbg!" then some "dbg! left in the diff"
  else if contains (lower t) "api_key" || contains (lower t) "apikey" || contains t "sk-" then
    some "possible secret in the diff"
  else none

/-- The items of a hunk: lines that need a look, and that nobody has looked at it. -/
def hunkTexts (h : HunkInput) : List String :=
  h.lines.filterMap (fun line => (suspicious lower line).map (fun why =>
    "Check " ++ why ++ " in " ++ h.path ++ " @" ++ toString h.newStart))
  ++ if !h.commented && !h.decided then
      ["Comment or accept/reject " ++ h.path ++ " @" ++ toString h.newStart
        ++ " (no review recorded)"]
    else []

def generateChecklist (hunks : List HunkInput) : List ChecklistItem :=
  let seenFiles := (hunks.map HunkInput.path).eraseDups
  let texts := seenFiles.map (fun path =>
      let count := (hunks.filter (fun h => h.path = path)).length
      "Review " ++ path ++ " (" ++ toString count ++ " hunk" ++ (if count = 1 then "" else "s")
        ++ ")")
    ++ (seenFiles.filter (isTestPath lower)).map (fun path => "Run the tests touched by " ++ path)
    ++ hunks.flatMap (hunkTexts lower)
    ++ ["Run the project test suite", "No secrets in the diff"]
  texts.mapIdx (fun i text =>
    ⟨"c" ++ (if i + 1 < 10 then "0" else "") ++ toString (i + 1), text, false⟩)

end Generated

/-! ### What was recorded -/

/-- The payloads of one kind for a task, at a revision. -/
def reviewRows (db : Db) (taskId kind revision : String) : List Json :=
  ((db.events.filter (fun row => row.aggregateId = taskId ∧ row.eventType = kind)).map
    EventRow.payloadInline).filter
      (fun v => (v.field "revision").bind Json.asStr = some revision)

def rowKey (v : Json) : String × Nat :=
  (((v.field "path").bind Json.asStr).getD "", ((v.field "new_start").bind Json.asNat).getD 0)

def decidedKeys (db : Db) (taskId revision : String) : List (String × Nat) :=
  (reviewRows db taskId "review_hunk_resolved" revision).map rowKey

def commentedKeys (db : Db) (taskId revision : String) : List (String × Nat) :=
  (reviewRows db taskId "review_comment_added" revision).map rowKey

/-- The hunks of the diff against the base, as they are parsed. -/
def diffHunks (tree : Tree) : List (String × Hunk) :=
  (tree.files.filter ChangedFile.listed).flatMap (fun f => f.hunks.map (fun h => (f.path, h)))

def checklistInputs (db : Db) (taskId revision : String) (tree : Tree) : List HunkInput :=
  (diffHunks tree).map (fun q =>
    { path := q.1
      newStart := newStart q.2
      lines := q.2.removed.map ("-" ++ ·) ++ q.2.added.map ("+" ++ ·)
      decided := (q.1, newStart q.2) ∈ decidedKeys db taskId revision
      commented := (q.1, newStart q.2) ∈ commentedKeys db taskId revision })

/-- The checklist of a task; `diff` says why `git diff -U0` fails with a base. -/
def Services.reviewChecklist (s : Services) (lower : String → String)
    (diff : String → Option String) (taskId : String) :
    Except ReviewError (String × List ChecklistItem) :=
  match s.reviewRepo taskId with
  | .error e => .error e
  | .ok (config, tree) =>
    match diff config.baseRevision with
    | some message => .error (.git ("diff -U0 " ++ config.baseRevision) message)
    | none => .ok (config.baseRevision,
        generateChecklist lower (checklistInputs s.db taskId config.baseRevision tree))

def Marked (db : Db) (taskId revision : String) (tree : Tree) (f : ChangedFile) (h : Hunk) : Prop :=
  ∃ input ∈ checklistInputs db taskId revision tree,
    input.path = f.path ∧ input.newStart = newStart h ∧ input.decided = true

section Places

variable {tree : Tree} {f g : ChangedFile} {h k : Hunk} {hs hs' : List Hunk}

theorem newStart_lt (hbefore : h.Before k) : newStart h < newStart k := by
  obtain ⟨-, htarget⟩ := hbefore
  rw [newStart, newStart]
  by_cases hadded : h.added = []
  · rw [if_pos hadded]
    split_ifs <;> omega
  · have hpos : 0 < h.added.length := length_pos_of_ne_nil hadded
    rw [if_neg hadded]
    split_ifs <;> omega

theorem source_lt (hbefore : h.Before k) : h.source < k.source :=
  lt_of_le_of_lt (Nat.le_add_right _ _) hbefore.1

theorem before_of_hunks (hhunks : f.hunks = hs ++ h :: hs') :
    (∀ k ∈ hs, k.Before h) ∧ ∀ k ∈ hs', h.Before k := by
  have hordered := f.delta.placed_ordered
  rw [show f.delta.placed = hs ++ h :: hs' from hhunks] at hordered
  obtain ⟨-, hrest, hcross⟩ := pairwise_append.mp hordered
  exact ⟨fun k hk => hcross k hk h mem_cons_self, (pairwise_cons.mp hrest).1⟩

theorem hunk_cases (hh : h ∈ f.hunks) (hk : k ∈ f.hunks) : k = h ∨ k.Before h ∨ h.Before k := by
  obtain ⟨hs, hs', hhunks⟩ := append_of_mem hh
  obtain ⟨hbefore, hafter⟩ := before_of_hunks hhunks
  rw [hhunks, mem_append, mem_cons] at hk
  rcases hk with hk | rfl | hk
  · exact .inr (.inl (hbefore k hk))
  · exact .inl rfl
  · exact .inr (.inr (hafter k hk))

theorem eq_of_newStart (hh : h ∈ f.hunks) (hk : k ∈ f.hunks) (heq : newStart k = newStart h) :
    k = h := by
  rcases hunk_cases hh hk with rfl | hbefore | hbefore
  · rfl
  · exact absurd heq (Nat.ne_of_lt (newStart_lt hbefore))
  · exact absurd heq.symm (Nat.ne_of_lt (newStart_lt hbefore))

theorem eq_of_source (hh : h ∈ f.hunks) (hk : k ∈ f.hunks) (heq : k.source = h.source) : k = h := by
  rcases hunk_cases hh hk with rfl | hbefore | hbefore
  · rfl
  · exact absurd heq (Nat.ne_of_lt (source_lt hbefore))
  · exact absurd heq.symm (Nat.ne_of_lt (source_lt hbefore))

theorem marked_iff {db : Db} {taskId revision : String} (hf : f ∈ tree.files) (hh : h ∈ f.hunks) :
    Marked db taskId revision tree f h ↔
      f.listed = true ∧ (f.path, newStart h) ∈ decidedKeys db taskId revision := by
  constructor
  · rintro ⟨input, hinput, hpath, hstart, hdecided⟩
    obtain ⟨⟨path, k⟩, hq, rfl⟩ := mem_map.mp hinput
    obtain ⟨g, hg, hk⟩ := mem_flatMap.mp hq
    obtain ⟨hmem, hlisted⟩ := mem_filter.mp hg
    obtain ⟨k, hk, heq⟩ := mem_map.mp hk
    obtain ⟨rfl, rfl⟩ := Prod.mk.inj heq
    obtain rfl := eq_of_path hf hmem hpath
    have hkeys := of_decide_eq_true hdecided
    dsimp only at hstart hkeys
    rw [hstart] at hkeys
    exact ⟨hlisted, hkeys⟩
  · rintro ⟨hlisted, hkey⟩
    have hq : (f.path, h) ∈ diffHunks tree :=
      mem_flatMap.mpr ⟨f, mem_filter.mpr ⟨hf, hlisted⟩, mem_map.mpr ⟨h, hh, rfl⟩⟩
    exact ⟨_, mem_map.mpr ⟨_, hq, rfl⟩, rfl, rfl, decide_eq_true hkey⟩

end Places

/-! ### Decisions one after another -/

/-- What the log says is decided is what was accepted: the marked hunks are those of `accepted`,
which are known by their file and their line in the base. -/
def Agree (keys accepted : List (String × Nat)) (tree : Tree) : Prop :=
  ∀ f ∈ tree.files, ∀ h ∈ f.hunks,
    (f.listed = true ∧ (f.path, newStart h) ∈ keys) ↔ (f.path, h.source) ∈ accepted

section Agreeing

variable {keys accepted : List (String × Nat)} {tree : Tree} {f g : ChangedFile} {h k : Hunk}

theorem agree_accept (hf : f ∈ tree.files) (hh : h ∈ f.hunks) (hagree : Agree keys accepted tree) :
    Agree (keys ++ [(f.path, newStart h)]) (accepted ++ [(f.path, h.source)]) tree ↔
      f.listed = true := by
  constructor
  · intro hafter
    refine ((hafter f hf h hh).mpr ?_).1
    exact mem_append_right _ (mem_singleton.mpr rfl)
  · intro hlisted g hg k hk
    have hone : (g.path, newStart k) = (f.path, newStart h) ↔
        (g.path, k.source) = (f.path, h.source) := by
      rw [Prod.mk.injEq, Prod.mk.injEq]
      refine and_congr_right (fun hpath => ?_)
      obtain rfl := eq_of_path hf hg hpath
      exact ⟨fun heq => congrArg _ (eq_of_newStart hh hk heq),
        fun heq => congrArg _ (eq_of_source hh hk heq)⟩
    have hlist : (g.path, newStart k) = (f.path, newStart h) → g.listed = true := by
      intro heq
      rw [eq_of_path hf hg (Prod.mk.inj heq).1]
      exact hlisted
    rw [mem_append, mem_append, mem_singleton, mem_singleton, ← hone,
      ← hagree g hg k hk, and_or_left]
    exact or_congr_right ⟨fun h => h.2, fun h => ⟨hlist h, h⟩⟩

/-- No hunk comes to be where something else was recorded, and none leaves what was recorded of
it. -/
def Stays (keys : List (String × Nat)) (f : ChangedFile) (h : Hunk) : Prop :=
  ∀ k ∈ f.hunks, newStart h < newStart k →
    ((f.path, newStart (k.moved h.added.length h.removed.length)) ∈ keys ∨
      newStart (k.moved h.added.length h.removed.length) = newStart h ↔ (f.path, newStart k) ∈ keys)

theorem mem_keys_concat {path : String} {m n : Nat} :
    (path, m) ∈ keys ++ [(path, n)] ↔ (path, m) ∈ keys ∨ m = n := by
  rw [mem_append, mem_singleton, Prod.mk.injEq, and_iff_right rfl]

theorem agree_reject (hf : f ∈ tree.files) (hh : h ∈ f.hunks) (hagree : Agree keys accepted tree) :
    Agree (keys ++ [(f.path, newStart h)]) accepted (tree.takeBack f.path h.target) ↔
      (f.listed = true → Stays keys f h) := by
  obtain ⟨hs, hs', hhunks⟩ := append_of_mem hh
  obtain ⟨hbefore, hafter⟩ := before_of_hunks hhunks
  have hundone : (f.takeBack h.target).hunks =
      hs ++ hs'.map (Placed.moved h.added.length h.removed.length) :=
    (Delta.undo_spec hhunks).placed
  have hmem : f.takeBack h.target ∈ (tree.takeBack f.path h.target).files :=
    mem_map.mpr ⟨f, hf, if_pos rfl⟩
  have hbehind : ∀ k ∈ f.hunks, newStart h < newStart k → k ∈ hs' := by
    intro k hk hlt
    rw [hhunks, mem_append, mem_cons] at hk
    rcases hk with hk | rfl | hk
    · exact absurd (newStart_lt (hbefore k hk)) (Nat.lt_asymm hlt)
    · exact absurd hlt (lt_irrefl _)
    · exact hk
  have hsame : ∀ k ∈ hs', (f.listed = true ∧ (f.path, newStart k) ∈ keys ↔
      (f.path, k.source) ∈ accepted) := fun k hk =>
    hagree f hf k (hhunks ▸ mem_append_right _ (mem_cons_of_mem h hk))
  constructor
  · intro hmoved hlisted k hk hlt
    have hk' := hbehind k hk hlt
    have hnow := hmoved _ hmem _
      (hundone ▸ mem_append_right _ (mem_map.mpr ⟨k, hk', rfl⟩))
    have hboth : f.listed = true ∧ (f.path, newStart (k.moved h.added.length h.removed.length)) ∈
        keys ++ [(f.path, newStart h)] ↔ f.listed = true ∧ (f.path, newStart k) ∈ keys :=
      hnow.trans (hsame k hk').symm
    rw [mem_keys_concat, and_iff_right hlisted] at hboth
    exact hboth.trans (and_iff_right hlisted)
  · intro hstays g' hg' k' hk'
    obtain ⟨g, hg, rfl⟩ := mem_map.mp hg'
    by_cases hpath : g.path = f.path
    · obtain rfl := eq_of_path hf hg hpath
      rw [if_pos rfl] at hk' ⊢
      rw [hundone, mem_append] at hk'
      show (g.listed = true ∧ (g.path, newStart k') ∈ keys ++ [(g.path, newStart h)]) ↔ _
      rw [mem_keys_concat]
      rcases hk' with hk' | hk'
      · -- a hunk before it stays where it was
        have hne : newStart k' ≠ newStart h := Nat.ne_of_lt (newStart_lt (hbefore k' hk'))
        rw [or_iff_left hne]
        exact hagree g hf k' (hhunks ▸ mem_append_left _ hk')
      · obtain ⟨k, hk, rfl⟩ := mem_map.mp hk'
        refine Iff.trans (and_congr_right (fun hlisted => ?_)) (hsame k hk)
        exact hstays hlisted k (hhunks ▸ mem_append_right _ (mem_cons_of_mem h hk))
          (newStart_lt (hafter k hk))
    · rw [if_neg hpath] at hk' ⊢
      have hne : (g.path, newStart k') ≠ (f.path, newStart h) :=
        fun heq => hpath (Prod.mk.inj heq).1
      rw [mem_append, mem_singleton, or_iff_left hne]
      exact hagree g hg k' hk'

end Agreeing

/-! ### Runs -/

/-- A session of the reviewer, and the hunks that were accepted in it. -/
structure Reviewing where
  services : Services
  accepted : List (String × Nat)

def namedHunks (tree : Tree) (resolve : ResolveReviewHunkCommand) : List Hunk :=
  (tree.files.filter (fun f => f.path = resolve.path)).flatMap (fun f =>
    f.hunks.filter (fun h => newStart h = resolve.newStart))

def acceptedKeys (s : Services) (resolve : ResolveReviewHunkCommand) : List (String × Nat) :=
  match s.reviewRepo resolve.taskId with
  | .ok (_, tree) =>
    if resolve.accepted then
      (namedHunks tree resolve).map (fun h => (resolve.path, h.source))
    else []
  | .error _ => []

abbrev Decision := ResolveReviewHunkCommand × Fleet.Turn

section Runs

variable (git : Git) (task : TaskId)

def decideHunk (r : Reviewing) (d : Decision) : Reviewing × Except ReviewError Unit :=
  let result := r.services.resolveReviewHunk git d.1 d.2
  (⟨result.1, r.accepted ++ acceptedKeys r.services d.1⟩, result.2)

theorem decideHunk_reply (r : Reviewing) (d : Decision) :
    (decideHunk git r d).2 = (r.services.resolveReviewHunk git d.1 d.2).2 := rfl

/-- The marked hunks of the task are those that were accepted. -/
def AllAgree (r : Reviewing) : Prop :=
  ∀ config tree, r.services.reviewRepo task.toText = .ok (config, tree) →
    ∀ f ∈ tree.files, ∀ h ∈ f.hunks,
      Marked r.services.db task.toText config.baseRevision tree f h ↔
        (f.path, h.source) ∈ r.accepted

/-- A decision on a hunk that is there: the call draws new identities and succeeds, and a rejection
takes back the hunk it names. -/
def Decides (r : Reviewing) (d : Decision) : Prop :=
  d.1.taskId = task.toText ∧ Fleet.Unused r.services.db d.2 ∧ (decideHunk git r d).2 = .ok () ∧
    ∃ config tree f h, r.services.reviewRepo task.toText = .ok (config, tree) ∧ f ∈ tree.files ∧
      h ∈ f.hunks ∧ d.1.path = f.path ∧ d.1.newStart = newStart h ∧
      (d.1.accepted = false →
        git.Takes tree d.1.path d.1.newStart config.baseRevision f h)

/-- Only what is listed is accepted, and only what leaves the others at their lines is rejected. -/
def Keeps (r : Reviewing) (d : Decision) : Prop :=
  ∀ config tree, r.services.reviewRepo task.toText = .ok (config, tree) →
    ∀ f ∈ tree.files, f.path = d.1.path → ∀ h ∈ f.hunks, newStart h = d.1.newStart →
      if d.1.accepted then f.listed = true
      else f.listed = true → Stays (decidedKeys r.services.db task.toText config.baseRevision) f h

variable {git} {task} {r : Reviewing} {d : Decision} {tree : Tree}

theorem reviewRepo_iff {s : Services} {taskId : String} {config : WorktreeLayout} :
    s.reviewRepo taskId = .ok (config, tree) ↔
      ∃ layout, s.taskWorktrees = some layout ∧ layout taskId = some config ∧
        s.worktrees config.worktree = .opened tree := by
  constructor
  · intro hrepo
    rw [Services.reviewRepo] at hrepo
    split at hrepo
    · cases hrepo
    · next layout hlayout =>
      split at hrepo
      · cases hrepo
      · next config' hconfig =>
        split at hrepo
        · cases hrepo
        · cases hrepo
        · next tree' hopened =>
          obtain ⟨rfl, rfl⟩ := Prod.mk.inj (Except.ok.inj hrepo)
          exact ⟨layout, hlayout, hconfig, hopened⟩
  · rintro ⟨layout, hlayout, hconfig, hopened⟩
    rw [Services.reviewRepo, hlayout]
    dsimp only
    rw [hconfig]
    dsimp only
    rw [hopened]

theorem decidedKeys_recorded {db db' : Db} {resolve : ResolveReviewHunkCommand} {base : String}
    (h : Recorded db db' task (decisionEvent resolve base)) : decidedKeys db' task.toText base =
      decidedKeys db task.toText base ++ [(resolve.path, resolve.newStart)] := by
  obtain ⟨row, log, hagg, htype, hpayload, rfl⟩ := h
  have hrow : row.aggregateId = task.toText ∧ row.eventType = "review_hunk_resolved" :=
    ⟨hagg, htype⟩
  have hrevision : (row.payloadInline.field "revision").bind Json.asStr = some base := by
    rw [hpayload]
    rfl
  have hkey : rowKey row.payloadInline = (resolve.path, resolve.newStart) := by
    rw [hpayload]
    rfl
  have hone : [row].filter (fun row =>
      row.aggregateId = task.toText ∧ row.eventType = "review_hunk_resolved") = [row] :=
    filter_eq_self.mpr (fun r hr => by
      rw [mem_singleton.mp hr]
      exact decide_eq_true hrow)
  have hread : [row.payloadInline].filter
      (fun v => (v.field "revision").bind Json.asStr = some base) = [row.payloadInline] :=
    filter_eq_self.mpr (fun v hv => by
      rw [mem_singleton.mp hv]
      exact decide_eq_true hrevision)
  have hrows : reviewRows ({ db with events := db.events ++ [row] }.withLog log) task.toText
      "review_hunk_resolved" base = reviewRows db task.toText "review_hunk_resolved" base ++
        [row.payloadInline] := by
    show (((db.events ++ [row]).filter _).map _).filter _ = _
    rw [filter_append, map_append, filter_append, hone, map_singleton, hread]
    rfl
  rw [decidedKeys, hrows, map_append, map_singleton, hkey]
  rfl

theorem allAgree_iff {config : WorktreeLayout}
    (hrepo : r.services.reviewRepo task.toText = .ok (config, tree)) : AllAgree task r ↔
      Agree (decidedKeys r.services.db task.toText config.baseRevision) r.accepted tree := by
  have hmarked : ∀ f ∈ tree.files, ∀ h ∈ f.hunks,
      Marked r.services.db task.toText config.baseRevision tree f h ↔ f.listed = true ∧
        (f.path, newStart h) ∈ decidedKeys r.services.db task.toText config.baseRevision :=
    fun f hf h hh => marked_iff hf hh
  constructor
  · intro hall f hf h hh
    exact (hmarked f hf h hh).symm.trans (hall config tree hrepo f hf h hh)
  · intro hagree config' tree' hrepo' f hf h hh
    obtain ⟨rfl, rfl⟩ := Prod.mk.inj (Except.ok.inj (hrepo.symm.trans hrepo'))
    exact (hmarked f hf h hh).trans (hagree f hf h hh)

theorem namedHunks_eq {resolve : ResolveReviewHunkCommand} {f : ChangedFile}
    {h : Hunk} (hf : f ∈ tree.files) (hh : h ∈ f.hunks) (hpath : resolve.path = f.path)
    (hstart : resolve.newStart = newStart h) : ∀ k, k ∈ namedHunks tree resolve ↔ k = h := by
  intro k
  constructor
  · intro hk
    obtain ⟨g, hg, hk⟩ := mem_flatMap.mp hk
    obtain ⟨hmem, hg⟩ := mem_filter.mp hg
    obtain ⟨hk, hat⟩ := mem_filter.mp hk
    obtain rfl := eq_of_path hf hmem ((of_decide_eq_true hg).trans hpath)
    exact eq_of_newStart hh hk ((of_decide_eq_true hat).trans hstart)
  · rintro rfl
    exact mem_flatMap.mpr ⟨f, mem_filter.mpr ⟨hf, decide_eq_true hpath.symm⟩,
      mem_filter.mpr ⟨hh, decide_eq_true hstart.symm⟩⟩

theorem agree_congr {keys accepted accepted' : List (String × Nat)}
    (h : ∀ q, q ∈ accepted ↔ q ∈ accepted') :
    Agree keys accepted tree ↔ Agree keys accepted' tree := by
  refine forall₄_congr (fun f _ k _ => ?_)
  rw [h]

variable {ops : List Op}

theorem Decides.result (hdb : r.services.db = Db.after ops) (h : Decides git task r d) :
    ∃ config tree f k, r.services.reviewRepo task.toText = .ok (config, tree) ∧ f ∈ tree.files ∧
      k ∈ f.hunks ∧ d.1.path = f.path ∧ d.1.newStart = newStart k ∧
      (decideHunk git r d).1.services.reviewRepo task.toText =
        .ok (config, if d.1.accepted = true then tree else tree.takeBack f.path k.target) ∧
      decidedKeys (decideHunk git r d).1.services.db task.toText config.baseRevision =
        decidedKeys r.services.db task.toText config.baseRevision ++ [(f.path, newStart k)] := by
  obtain ⟨htask, hunused, hok, config, tree, f, k, hrepo, hf, hk, hpath, hstart, htakes⟩ := h
  -- a call that succeeds has recorded the decision
  have hrecord : ∀ s₁ : Services, s₁.db = r.services.db →
      (s₁.recordDecision d.1 d.2 config.baseRevision).2 = .ok () →
      ∃ db', (s₁.recordDecision d.1 d.2 config.baseRevision).1 = { s₁ with db := db' } ∧
        decidedKeys db' task.toText config.baseRevision =
          decidedKeys r.services.db task.toText config.baseRevision ++ [(f.path, newStart k)] := by
    intro s₁ hsame hsuccess
    by_cases hrecording : Recording s₁ d.1 d.2
    · obtain ⟨taskId, db', hparse, hrecorded, hcall⟩ := recordDecision_recorded (hsame.trans hdb)
        (hsame ▸ hunused) hrecording config.baseRevision
      rw [htask, Id.parse_toText] at hparse
      obtain rfl := Option.some.inj hparse
      refine ⟨db', congrArg Prod.fst hcall, ?_⟩
      rw [decidedKeys_recorded hrecorded, hpath, hstart, hsame]
    · obtain ⟨db', e, hcall, -⟩ := recordDecision_untouched (hsame.trans hdb) (hsame ▸ hunused)
        hrecording config.baseRevision
      rw [hcall] at hsuccess
      cases hsuccess
  have hcall : (r.services.resolveReviewHunk git d.1 d.2).2 = .ok () := hok
  refine ⟨config, tree, f, k, hrepo, hf, hk, hpath, hstart, ?_⟩
  show (r.services.resolveReviewHunk git d.1 d.2).1.reviewRepo _ = _ ∧
    decidedKeys (r.services.resolveReviewHunk git d.1 d.2).1.db _ _ = _
  obtain ⟨layout, hlayout, hconfig, hopened⟩ := reviewRepo_iff.mp hrepo
  rw [Services.resolveReviewHunk, htask, hrepo] at hcall ⊢
  dsimp only at hcall ⊢
  by_cases haccepted : d.1.accepted = true
  · rw [if_pos haccepted] at hcall ⊢
    obtain ⟨db', hafter, hkeys⟩ := hrecord r.services rfl hcall
    rw [hafter, if_pos haccepted]
    exact ⟨reviewRepo_iff.mpr ⟨layout, hlayout, hconfig, hopened⟩, hkeys⟩
  · rw [if_neg haccepted] at hcall ⊢
    have htaken := htakes (Bool.eq_false_iff.mpr haccepted)
    have hreject : git.rejectHunk tree d.1.path d.1.newStart config.baseRevision =
        .ok (tree.takeBack f.path k.target) := by
      rcases rejectHunk_cases git tree d.1.path d.1.newStart config.baseRevision with
        ⟨e, -, -, hnone⟩ | ⟨-, -, hnone⟩ | ⟨g, l, hreject, -, -, honly⟩
      · exact absurd htaken (hnone f k)
      · exact absurd htaken (hnone f k)
      · obtain ⟨rfl, rfl⟩ := honly f k htaken
        exact hreject
    rw [hreject] at hcall ⊢
    obtain ⟨db', hafter, hkeys⟩ := hrecord (r.services.withTree config.worktree _) rfl hcall
    rw [hafter, if_neg haccepted]
    exact ⟨reviewRepo_iff.mpr ⟨layout, hlayout, hconfig, Function.update_self _ _ _⟩, hkeys⟩

/-- **A decision keeps the marks right** exactly if it meets its condition. -/
theorem Decides.agree_iff (hdb : r.services.db = Db.after ops)
    (h : Decides git task r d) (hagree : AllAgree task r) :
    AllAgree task (decideHunk git r d).1 ↔ Keeps task r d := by
  have htask := h.1
  obtain ⟨config, tree, f, k, hrepo, hf, hk, hpath, hstart, hafter, hkeys⟩ := h.result hdb
  have hnamed := namedHunks_eq hf hk hpath hstart
  have hkeeps : Keeps task r d ↔ if d.1.accepted = true then f.listed = true else f.listed = true →
      Stays (decidedKeys r.services.db task.toText config.baseRevision) f k := by
    constructor
    · exact fun hkeep => hkeep config tree hrepo f hf hpath.symm k hk hstart.symm
    · intro hone config' tree' hrepo' g hg hpath' l hl hstart'
      obtain ⟨rfl, rfl⟩ := Prod.mk.inj (Except.ok.inj (hrepo.symm.trans hrepo'))
      obtain rfl := eq_of_path hf hg (hpath'.trans hpath)
      obtain rfl := eq_of_newStart hk hl (hstart'.trans hstart)
      exact hone
  rw [allAgree_iff hafter, hkeys, hkeeps]
  have hstore := (allAgree_iff hrepo).mp hagree
  have hadded : acceptedKeys r.services d.1 =
      if d.1.accepted = true then (namedHunks tree d.1).map (fun h => (d.1.path, h.source))
      else [] := by
    rw [acceptedKeys, htask, hrepo]
  by_cases haccepted : d.1.accepted = true
  · rw [if_pos haccepted, if_pos haccepted, ← agree_accept hf hk hstore]
    refine agree_congr (fun q => ?_)
    show q ∈ r.accepted ++ acceptedKeys r.services d.1 ↔ _
    rw [hadded, if_pos haccepted, mem_append, mem_append, mem_singleton, mem_map]
    refine or_congr_right ⟨?_, fun hq => ⟨k, (hnamed k).mpr rfl, hpath ▸ hq.symm⟩⟩
    rintro ⟨l, hl, rfl⟩
    rw [(hnamed l).mp hl, hpath]
  · rw [if_neg haccepted, if_neg haccepted, ← agree_reject hf hk hstore]
    refine agree_congr (fun q => ?_)
    show q ∈ r.accepted ++ acceptedKeys r.services d.1 ↔ _
    rw [hadded, if_neg haccepted, append_nil]

theorem recordDecision_db (s : Services) (resolve : ResolveReviewHunkCommand) (turn : Fleet.Turn)
    (base : String) (hdb : s.db = Db.after ops) :
    ∃ ops', (s.recordDecision resolve turn base).1.db = Db.after ops' := by
  rw [Services.recordDecision]
  cases (Id.parse resolve.taskId : Option TaskId) with
  | none => exact ⟨ops, hdb⟩
  | some taskId =>
    dsimp only
    have hcase := Fleet.Capacity.executeCommand_db s.db (payloadOf taskId resolve base) turn
    rw [payloadOf] at hcase
    generalize Fleet.executeCommand s.db (.resolveReviewHunk taskId resolve.path resolve.newStart
      resolve.accepted base) turn = result at hcase
    have hafter : ∃ ops', result.1 = Db.after ops' := by
      rcases hcase with hsame | hexec
      · exact ⟨ops, hsame.trans hdb⟩
      · refine ⟨ops ++ [.execute (turn.command (payloadOf taskId resolve base)) turn.oracle], ?_⟩
        rw [after_concat, ← hdb, fst_step_execute]
        exact hexec
    obtain ⟨db, _ | _⟩ := result
    · exact hafter
    · exact hafter

theorem decideHunk_db (r : Reviewing) (d : Decision) (hdb : r.services.db = Db.after ops) :
    ∃ ops', (decideHunk git r d).1.services.db = Db.after ops' := by
  show ∃ ops', (r.services.resolveReviewHunk git d.1 d.2).1.db = Db.after ops'
  rw [Services.resolveReviewHunk]
  cases r.services.reviewRepo d.1.taskId with
  | error e => exact ⟨ops, hdb⟩
  | ok found =>
    obtain ⟨config, tree⟩ := found
    dsimp only
    split_ifs
    · exact recordDecision_db _ _ _ _ hdb
    · cases git.rejectHunk tree d.1.path d.1.newStart config.baseRevision with
      | error e => exact ⟨ops, hdb⟩
      | ok tree' => exact recordDecision_db (r.services.withTree config.worktree tree') _ _ _ hdb

theorem run_db (hdb : r.services.db = Db.after ops) (ds : List Decision) :
    ∃ ops', (run (decideHunk git) r ds).services.db = Db.after ops' := by
  induction ds using List.reverseRecOn with
  | nil => exact ⟨ops, hdb⟩
  | append_singleton ds d ih =>
    obtain ⟨ops', hops⟩ := ih
    rw [run_append]
    exact decideHunk_db _ d hops

variable (git task) in
/-- **The marks are right after every decision of a run** exactly if they are at the start and each
decision meets its condition. -/
theorem checklist_agrees_iff (ops : List Op) (layouts : Option (String → Option WorktreeLayout))
    (worktrees : String → Checkout) (accepted : List (String × Nat)) (ds : List Decision) :
    let start : Reviewing := ⟨⟨Db.after ops, layouts, worktrees⟩, accepted⟩
    Admits (decideHunk git) (Decides git task) start ds ∧
        Always (decideHunk git) (AllAgree task) start ds ↔
      AllAgree task start ∧
        Admits (decideHunk git) (fun r d => Decides git task r d ∧ Keeps task r d) start ds := by
  refine always_iff_admits_on (Decides git task) (fun prior d hdecides hagree => ?_) ds
  have hdb : (Reviewing.mk ⟨Db.after ops, layouts, worktrees⟩ accepted).services.db =
      Db.after ops := rfl
  obtain ⟨ops', hops⟩ := run_db hdb prior
  exact hdecides.agree_iff hops hagree

end Runs

/-! ### A hunk that moves to a line that is decided -/

/-- A line is new before one that was there, and the one after that is gone. -/
def movedLine : Tree where
  files := [⟨"a.txt", true, false,
    ⟨[⟨[], [], ["new"]⟩, ⟨["old"], ["gone"], []⟩], [], by decide, by decide⟩⟩]
  distinct := List.nodup_singleton _

def runningOps : List Op := failedOps.take 4

def reviewing : Reviewing :=
  ⟨⟨Db.after runningOps, some (fun _ => some ⟨"worktree", "main"⟩), fun _ => .opened movedLine⟩, []⟩

theorem runningOps_facts : stateOf (Db.after runningOps) ⟨.ofNat 3⟩ = some .running ∧
    Fleet.Unused (Db.after runningOps) (Fleet.sampleTurn 10) ∧
    decidedKeys (Db.after runningOps) (Id.toText (⟨.ofNat 3⟩ : TaskId)) "main" = [] := by
  have heval : Db.after runningOps = run evalStep Db.empty runningOps := by
    rw [Db.after, step_eq]
  rw [heval]
  decide +kernel

/-- The new line is rejected, and then the hunk behind it is marked, which nobody has decided on. -/
theorem moved_and_marked :
    Decides plainGit ⟨.ofNat 3⟩ reviewing (rejectAdded, Fleet.sampleTurn 10) ∧
      AllAgree ⟨.ofNat 3⟩ reviewing ∧
      ¬ AllAgree ⟨.ofNat 3⟩
        (decideHunk plainGit reviewing (rejectAdded, Fleet.sampleTurn 10)).1 := by
  obtain ⟨hstate, hunused, hkeys⟩ := runningOps_facts
  have hrepo : reviewing.services.reviewRepo rejectAdded.taskId =
      .ok (⟨"worktree", "main"⟩, movedLine) := rfl
  have hfiles : plainGit.diffFiles movedLine "a.txt" = movedLine.files := rfl
  have hreject : plainGit.rejectHunk movedLine "a.txt" 1 "main" =
      .ok (movedLine.takeBack "a.txt" 0) := by
    rw [Git.rejectHunk, Git.blocks, Git.headed, hfiles]
    rfl
  have hrecording : Recording (reviewing.services.withTree "worktree"
      (movedLine.takeBack "a.txt" 0)) rejectAdded (Fleet.sampleTurn 10) :=
    ⟨⟨⟨.ofNat 3⟩, Id.parse_toText _, .running, hstate, rfl⟩, by decide⟩
  have hdb : (reviewing.services.withTree "worktree" (movedLine.takeBack "a.txt" 0)).db =
      Db.after runningOps := rfl
  have hok : (decideHunk plainGit reviewing (rejectAdded, Fleet.sampleTurn 10)).2 = .ok () := by
    obtain ⟨-, db', -, -, hcall⟩ := recordDecision_recorded hdb hunused hrecording "main"
    rw [if_pos (show (Fleet.sampleTurn 10).fault = .none from rfl)] at hcall
    have hrun : reviewing.services.resolveReviewHunk plainGit rejectAdded (Fleet.sampleTurn 10) =
        ({ reviewing.services.withTree "worktree" (movedLine.takeBack "a.txt" 0) with db := db' },
          .ok ()) := by
      rw [Services.resolveReviewHunk, hrepo]
      dsimp only
      rw [if_neg (by decide), show rejectAdded.path = "a.txt" from rfl,
        show rejectAdded.newStart = 1 from rfl, hreject]
      exact hcall
    rw [decideHunk_reply, hrun]
  have hdecides : Decides plainGit ⟨.ofNat 3⟩ reviewing (rejectAdded, Fleet.sampleTurn 10) := by
    refine ⟨rfl, hunused, hok, ⟨"worktree", "main"⟩, movedLine, _, ⟨0, 0, [], ["new"]⟩, hrepo,
      mem_cons_self, mem_cons_self, rfl, rfl,
      fun _ => ⟨rfl, ?_, ?_, rfl, mem_cons_self⟩⟩
    · rw [Git.headed, show rejectAdded.path = "a.txt" from rfl, hfiles]
      rfl
    · rw [Git.blocks, show rejectAdded.path = "a.txt" from rfl, hfiles]
      rfl
  have hdb' : reviewing.services.db = Db.after runningOps := rfl
  have hempty : decidedKeys reviewing.services.db (Id.toText (⟨.ofNat 3⟩ : TaskId)) "main" =
      [] := by
    rw [hdb']
    exact hkeys
  have hstart : AllAgree ⟨.ofNat 3⟩ reviewing := by
    refine (allAgree_iff hrepo).mpr (fun f _ h _ => iff_of_false ?_ not_mem_nil)
    rw [hempty]
    exact fun hkey => not_mem_nil hkey.2
  refine ⟨hdecides, hstart, fun hafter => ?_⟩
  have hkeeps := (hdecides.agree_iff hdb' hstart).mp hafter
  have hstays := hkeeps ⟨"worktree", "main"⟩ movedLine hrepo _ mem_cons_self rfl
    ⟨0, 0, [], ["new"]⟩ mem_cons_self rfl
  rw [if_neg (show ¬ rejectAdded.accepted = true by decide), hempty] at hstays
  -- the hunk behind it moves to the line of the decision
  have hmoved := (hstays rfl ⟨1, 2, ["gone"], []⟩ (mem_cons_of_mem _ mem_cons_self)
    (by decide)).mp (.inr rfl)
  exact not_mem_nil hmoved

end Review

end Modbit
