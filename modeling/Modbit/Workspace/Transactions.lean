import Modbit.Workspace.ChangeEngine
import Modbit.Workspace.Resolution

/-!
# Transactions

`Sound` is what a transaction promises: all of its edits, or nothing.  It is kept where
planning does not panic (`planFits`) and the temporaries of the edited files are all
different and take no other file's place (`Apart`): `applyTransaction_sound`.

The temporaries are `Job`s.  `stage_spec` says what the tree is after the jobs are staged,
`renameAll_spec` after they are renamed.
-/

namespace Modbit

open Lib List

namespace Workspace

namespace WorkspaceFileService

/-! ### What a transaction promises -/

section Promise

variable (s : WorkspaceFileService)

def editsOf (edits : List EditOp) (f : FilePath) : List EditOp :=
  edits.filter (fun e => s.Names e.path f)

def editAll : List EditOp → List UInt8 → Outcome (List UInt8)
  | [], bytes => some (.ok bytes)
  | edit :: edits, bytes =>
    match editBytes edit bytes with
    | some (.ok bytes) => editAll edits bytes
    | outcome => outcome

/-- Every edited file has all of its edits and no other has changed, the ledger's own aside,
or the call has failed and nothing has. -/
def Sound (edits : List EditOp) : Prop :=
  match s.applyTransaction edits with
  | (_, none) => False
  | (s', some (.error _)) =>
    (∀ f, s'.tree.node f = s.tree.node f) ∧ s'.revisions.files = s.revisions.files
  | (s', some (.ok _)) =>
    ∀ f, ¬ s.Own f → (s.editsOf edits f = [] → s'.tree.node f = s.tree.node f) ∧
      (s.editsOf edits f ≠ [] → ∃ bytes edited, s.tree.node f = some (.file bytes) ∧
        editAll (s.editsOf edits f) bytes = some (.ok edited) ∧
        s'.tree.node f = some (.file edited))

/-! ### The condition -/

/-- No hunk that is reached has more old lines than there are lines. -/
def hunksFit : List PatchHunk → List (List Char) → Bool
  | [], _ => true
  | hunk :: hunks, lines => hunk.oldLines.length ≤ lines.length &&
    match matchLadder lines hunk.anchorLine hunk.oldLines with
    | some (.ok (start, _)) => hunksFit hunks (spliceLines lines start hunk)
    | _ => true

def editFits (edit : EditOp) : Bool :=
  match s.read edit.path with
  | .ok (bytes, current) =>
    current ≠ edit.expectedRevision || hunksFit (bottomUp edit.hunks) (linesOf bytes)
  | .error _ => true

/-- No edit that is reached has a hunk that does not fit. -/
def planFits : List EditOp → Bool
  | [] => true
  | edit :: edits => s.editFits edit &&
    match s.planEdit edit with
    | some (.ok _) => planFits edits
    | _ => true

def tmpOf (edit : EditOp) : Except WorkspaceError FilePath := (s.resolve edit.path).map txnTmp

/-- The temporary is vacant, or the edited file itself. -/
def tmpFree (edit : EditOp) : Bool :=
  match s.resolve edit.path with
  | .ok f => s.tree.node (txnTmp f) = none || txnTmp f = f
  | .error _ => true

/-- The temporaries are different, and each is vacant or its own file. -/
def Apart (edits : List EditOp) : Prop :=
  (edits.map s.tmpOf).Nodup ∧ ∀ e ∈ edits, s.tmpFree e = true

instance (edits : List EditOp) : Decidable (s.Apart edits) := inferInstanceAs (Decidable (_ ∧ _))

def Planned (edits : List EditOp) : Prop :=
  ∀ e ∈ edits, ∃ bytes, s.planEdit e = some (.ok bytes)

end Promise

/-! ### Planning -/

section Plan

variable {s : WorkspaceFileService}

theorem matchLadder_eq_none {lines oldLines : List (List Char)} {anchor : Nat} :
    matchLadder lines anchor oldLines = none ↔ lines.length < oldLines.length := by
  rw [matchLadder]
  split_ifs with hempty hlong
  · simp [hempty]
  · simp [hlong]
  · refine iff_of_false ?_ hlong
    split
    · exact Option.some_ne_none _
    · exact Option.some_ne_none _
    · split
      · exact Option.some_ne_none _
      · exact Option.some_ne_none _
      · exact Option.some_ne_none _

theorem matchHunks_eq_none {path : String} (hunks : List PatchHunk) : ∀ lines,
    matchHunks path hunks lines = none ↔ hunksFit hunks lines = false := by
  induction hunks with
  | nil =>
    intro lines
    exact iff_of_false (Option.some_ne_none _) (fun h => by cases h)
  | cons hunk hunks ih =>
    intro lines
    rw [matchHunks, hunksFit, Bool.and_eq_false_iff, decide_eq_false_iff_not, Nat.not_le,
      ← @matchLadder_eq_none lines hunk.oldLines hunk.anchorLine]
    cases matchLadder lines hunk.anchorLine hunk.oldLines with
    | none => simp
    | some outcome =>
      cases outcome with
      | error e => simp
      | ok found =>
        rw [ih]
        simp

theorem editBytes_eq_none {edit : EditOp} {bytes : List UInt8} :
    editBytes edit bytes = none ↔ hunksFit (bottomUp edit.hunks) (linesOf bytes) = false := by
  rw [← @matchHunks_eq_none edit.path, editBytes]
  cases matchHunks edit.path (bottomUp edit.hunks) (linesOf bytes) with
  | none => simp
  | some outcome =>
    cases outcome with
    | error e => simp
    | ok lines => simp

theorem planEdit_eq_none {edit : EditOp} :
    s.planEdit edit = none ↔ s.editFits edit = false := by
  rw [planEdit, editFits]
  cases s.read edit.path with
  | error e =>
    cases e with
    | outsideRoot p => simp
    | pathNotFound p => simp
    | alreadyExists p => simp
    | staleRevision p expected actual => simp
    | patchMismatch p line => simp
    | io => simp
  | ok found =>
    dsimp only
    split_ifs with hrev
    · simp [hrev]
    · rw [editBytes_eq_none]
      simp [not_not.mp hrev]

/-- **Planning panics exactly where a hunk that is reached does not fit.** -/
theorem plan_eq_none (edits : List EditOp) : s.plan edits = none ↔ s.planFits edits = false := by
  induction edits with
  | nil => exact iff_of_false (Option.some_ne_none _) (fun h => by cases h)
  | cons edit edits ih =>
    rw [plan, planFits, Bool.and_eq_false_iff, ← planEdit_eq_none]
    cases s.planEdit edit with
    | none => simp
    | some outcome =>
      cases outcome with
      | error e => simp
      | ok bytes =>
        rw [← ih]
        cases s.plan edits with
        | none => simp
        | some rest =>
          cases rest with
          | error e => simp
          | ok planned => simp

end Plan

/-! ### Staging -/

structure Job where
  path : String
  file : FilePath
  bytes : List UInt8

def Job.tmp (j : Job) : FilePath := txnTmp j.file

/-- Jobs that do not get in each other's way. -/
structure Ready (s : WorkspaceFileService) (jobs : List Job) : Prop where
  names : ∀ j ∈ jobs, s.Names j.path j.file
  file : ∀ j ∈ jobs, ∃ bytes, s.tree.node j.file = some (.file bytes)
  vacant : ∀ j ∈ jobs, s.tree.node j.tmp = none ∨ j.tmp = j.file
  nodup : (jobs.map Job.tmp).Nodup

section Jobs

variable {s : WorkspaceFileService} {jobs : List Job} {t : FileTree} {j : Job}

theorem slot_tmp (hfile : t.Slot j.file) (hdir : t.node j.tmp ≠ some .dir) : t.Slot j.tmp :=
  ⟨FilePath.withExtension_ne_nil _ hfile.1,
    (congrArg t.node (FilePath.dropLast_withExtension _ hfile.1)).trans hfile.2.1, hdir⟩

theorem Ready.tmp_cases (h : Ready s jobs) (hj : j ∈ jobs) :
    s.tree.node j.tmp = none ∨ ∃ bytes, s.tree.node j.tmp = some (.file bytes) := by
  rcases h.vacant j hj with hnone | hself
  · exact Or.inl hnone
  · rw [hself]
    exact Or.inr (h.file j hj)

theorem stage_one (h : Ready s (j :: jobs)) :
    ∃ t, s.tree.createDirAll j.file.dropLast = some s.tree ∧
      s.tree.write (txnTmp j.file) j.bytes = some t ∧
      (∀ x, t.node x = if x = j.tmp then some (.file j.bytes) else s.tree.node x) ∧
      Ready { s with tree := t } jobs := by
  obtain ⟨hhead, hnodup⟩ := nodup_cons.mp h.nodup
  obtain ⟨old, hold⟩ := h.file j mem_cons_self
  have hslotFile := FileTree.slot_of_file hold
  have htmp := h.tmp_cases mem_cons_self
  have hnotDir : s.tree.node j.tmp ≠ some .dir := by
    rcases htmp with hn | ⟨b, hn⟩
    · rw [hn]
      exact fun h0 => by cases h0
    · rw [hn]
      exact fun h0 => by cases h0
  have hnotLink : s.tree.NotLink j.tmp := by
    intro target hl
    rcases htmp with hn | ⟨b, hn⟩
    · rw [hn] at hl
      cases hl
    · rw [hn] at hl
      cases hl
  have hslot := slot_tmp hslotFile hnotDir
  have hplace : s.tree.place j.tmp = some j.tmp :=
    FileTree.place_of_plain (Or.inr hslot.2.1) hnotLink
  have hnode : ∀ x, (s.tree.update j.tmp (some (.file j.bytes)) hslot).node x
      = if x = j.tmp then some (.file j.bytes) else s.tree.node x := FileTree.node_update hslot
  refine ⟨s.tree.update j.tmp (some (.file j.bytes)) hslot,
    FileTree.createDirAll_of_dir hslotFile.2.1, FileTree.write_of_slot hplace hslot, hnode, ?_⟩
  have hgrows : s.tree.Grows (s.tree.update j.tmp (some (.file j.bytes)) hslot) :=
    FileTree.grows_of_file hnotDir hnotLink hnode
  have hother : ∀ k ∈ jobs, k.tmp ≠ j.tmp := fun k hk he =>
    hhead (he ▸ mem_map.mpr ⟨k, hk, rfl⟩)
  refine ⟨fun k hk => ?_, fun k hk => ?_, fun k hk => ?_, hnodup⟩
  · exact names_of_grows hgrows (h.names k (mem_cons_of_mem j hk))
      (h.file k (mem_cons_of_mem j hk))
  · exact hgrows.2 _ (h.file k (mem_cons_of_mem j hk))
  · rw [hnode, if_neg (hother k hk)]
    exact h.vacant k (mem_cons_of_mem j hk)

/-- **Staging puts the new bytes into the temporaries.** -/
theorem stage_spec (jobs : List Job) : ∀ s : WorkspaceFileService, Ready s jobs →
    ∃ t, stage (jobs.map (fun j => (j.path, j.bytes))) s
        = ({ s with tree := t }, .ok (jobs.map (fun j => (j.tmp, j.file)))) ∧
      (∀ j ∈ jobs, t.node j.tmp = some (.file j.bytes)) ∧
      ∀ x, (∀ j ∈ jobs, x ≠ j.tmp) → t.node x = s.tree.node x := by
  induction jobs with
  | nil =>
    intro s _
    exact ⟨s.tree, rfl, fun j hj => absurd hj not_mem_nil, fun x _ => rfl⟩
  | cons j jobs ih =>
    intro s h
    obtain ⟨t₁, hdirs, hwrite, hnode, hready⟩ := stage_one h
    obtain ⟨t, hstage, htmps, hothers⟩ := ih { s with tree := t₁ } hready
    have hhead := (nodup_cons.mp h.nodup).1
    have hnames : s.resolve j.path = .ok j.file := h.names j mem_cons_self
    refine ⟨t, ?_, ?_, ?_⟩
    · rw [map_cons, stage, hnames]
      dsimp only
      rw [hdirs]
      dsimp only
      rw [hwrite]
      dsimp only
      rw [hstage]
      rfl
    · intro k hk
      rcases mem_cons.mp hk with rfl | hk
      · rw [hothers k.tmp (fun l hl he => hhead (he ▸ mem_map.mpr ⟨l, hl, rfl⟩)), hnode, if_pos rfl]
      · exact htmps k hk
    · intro x hx
      rw [hothers x (fun l hl => hx l (mem_cons_of_mem j hl)), hnode, if_neg (hx j mem_cons_self)]

/-! ### Renaming -/

/-- Staged jobs that do not get in each other's way. -/
structure Staged (t : FileTree) (jobs : List Job) : Prop where
  tmp : ∀ j ∈ jobs, t.node j.tmp = some (.file j.bytes)
  file : ∀ j ∈ jobs, t.Slot j.file
  nodup : (jobs.map Job.tmp).Nodup
  apart : ∀ j ∈ jobs, ∀ k ∈ jobs, j.tmp = k.file → j.tmp = k.tmp

theorem rename_one (h : Staged t (j :: jobs)) : ∃ t', t.rename j.tmp j.file = some t' ∧
      (∀ x, t'.node x = if x = j.file then some (.file j.bytes)
        else if x = j.tmp then none else t.node x) ∧ Staged t' jobs := by
  obtain ⟨hhead, hnodup⟩ := nodup_cons.mp h.nodup
  have htmp := h.tmp j mem_cons_self
  have hslot := FileTree.slot_of_file htmp
  have hfile := h.file j mem_cons_self
  have hentry := FileTree.entry_of_dir hslot.1 hslot.2.1
  have hentry' := FileTree.entry_of_dir hfile.1 hfile.2.1
  obtain ⟨t', hrename, hnode⟩ : ∃ t', t.rename j.tmp j.file = some t' ∧
      ∀ x, t'.node x = if x = j.file then some (.file j.bytes)
        else if x = j.tmp then none else t.node x := by
    by_cases hself : j.tmp = j.file
    · refine ⟨t, FileTree.rename_self hentry (hself ▸ hentry') ?_, fun x => ?_⟩
      · rw [htmp]
        exact Option.some_ne_none _
      · by_cases hx : x = j.file
        · rw [if_pos hx, hx, ← hself, htmp]
        · rw [if_neg hx, if_neg (hself ▸ hx)]
    · obtain ⟨t', ht', hn⟩ := FileTree.rename_of_slot hentry hentry' hself hslot
        (by rw [htmp]; exact Option.some_ne_none _) hfile
      refine ⟨t', ht', fun x => ?_⟩
      rw [hn, htmp]
      by_cases hx : x = j.tmp
      · rw [if_pos hx, if_neg (fun hf => hself (hx.symm.trans hf)), if_pos hx]
      · rw [if_neg hx, if_neg hx]
  have hdistinct : ∀ k ∈ jobs, k.tmp ≠ j.tmp := fun k hk he =>
    hhead (he ▸ mem_map.mpr ⟨k, hk, rfl⟩)
  refine ⟨t', hrename, hnode, fun k hk => ?_, fun k hk => ?_, hnodup, fun k hk l hl =>
    h.apart k (mem_cons_of_mem j hk) l (mem_cons_of_mem j hl)⟩
  · have hnotFile : k.tmp ≠ j.file := fun he =>
      hdistinct k hk (h.apart k (mem_cons_of_mem j hk) j mem_cons_self he)
    rw [hnode, if_neg hnotFile, if_neg (hdistinct k hk)]
    exact h.tmp k (mem_cons_of_mem j hk)
  · have hk' := h.file k (mem_cons_of_mem j hk)
    have hne : ∀ p, t.node p = some .dir → t'.node p = some .dir := by
      intro p hp
      have hpf : p ≠ j.file := by
        rintro rfl
        exact hfile.2.2 hp
      have hpt : p ≠ j.tmp := by
        rintro rfl
        exact hslot.2.2 hp
      rw [hnode, if_neg hpf, if_neg hpt, hp]
    refine ⟨hk'.1, hne _ hk'.2.1, ?_⟩
    rw [hnode]
    split_ifs
    · exact fun h0 => by cases h0
    · exact fun h0 => by cases h0
    · exact hk'.2.2

/-- **Renaming puts the staged bytes into the edited files.** -/
theorem renameAll_spec (jobs : List Job) : ∀ s : WorkspaceFileService, Staged s.tree jobs →
    ∃ t, renameAll (jobs.map (fun j => (j.tmp, j.file))) s = ({ s with tree := t }, .ok ()) ∧
      (∀ j ∈ jobs, t.node j.file = some (.file j.bytes)) ∧
      (∀ j ∈ jobs, (∀ k ∈ jobs, j.tmp ≠ k.file) → t.node j.tmp = none) ∧
      ∀ x, (∀ j ∈ jobs, x ≠ j.file ∧ x ≠ j.tmp) → t.node x = s.tree.node x := by
  induction jobs with
  | nil =>
    intro s _
    exact ⟨s.tree, rfl, fun j hj => absurd hj not_mem_nil,
      fun j hj => absurd hj not_mem_nil, fun x _ => rfl⟩
  | cons j jobs ih =>
    intro s h
    have hhead := (nodup_cons.mp h.nodup).1
    have hdistinct : ∀ k ∈ jobs, j.tmp ≠ k.tmp := fun k hk he =>
      hhead (he ▸ mem_map.mpr ⟨k, hk, rfl⟩)
    obtain ⟨t₁, hrename, hnode, hstaged⟩ := rename_one h
    obtain ⟨t, hall, hfiles, htmps, hothers⟩ := ih { s with tree := t₁ } hstaged
    refine ⟨t, ?_, fun k hk => ?_, fun k hk hfree => ?_, fun x hx => ?_⟩
    · rw [map_cons, renameAll, hrename]
      exact hall
    · rcases mem_cons.mp hk with rfl | hk
      · rw [hothers k.file, hnode, if_pos rfl]
        intro l hl
        constructor
        · intro he
          exact hdistinct l hl (congrArg txnTmp he)
        · intro he
          exact hdistinct l hl (h.apart l (mem_cons_of_mem k hl) k mem_cons_self
            he.symm).symm
      · exact hfiles k hk
    · rcases mem_cons.mp hk with rfl | hk
      · rw [hothers k.tmp, hnode, if_neg (hfree k mem_cons_self), if_pos rfl]
        exact fun l hl => ⟨hfree l (mem_cons_of_mem k hl), hdistinct l hl⟩
      · exact htmps k hk (fun l hl => hfree l (mem_cons_of_mem j hl))
    · obtain ⟨hxf, hxt⟩ := hx j mem_cons_self
      rw [hothers x (fun l hl => hx l (mem_cons_of_mem j hl)), hnode, if_neg hxf, if_neg hxt]

theorem staged_of_ready (h : Ready s jobs) (htmp : ∀ j ∈ jobs, t.node j.tmp = some (.file j.bytes))
    (hother : ∀ x, (∀ j ∈ jobs, x ≠ j.tmp) → t.node x = s.tree.node x) : Staged t jobs := by
  refine ⟨htmp, fun j hj => ?_, h.nodup, fun j hj k hk he => ?_⟩
  · by_cases hin : ∃ k ∈ jobs, j.file = k.tmp
    · obtain ⟨k, hk, he⟩ := hin
      exact FileTree.slot_of_file (he ▸ htmp k hk)
    · obtain ⟨old, hold⟩ := h.file j hj
      have hfile : t.node j.file = some (.file old) := by
        rw [hother j.file (fun k hk he => hin ⟨k, hk, he⟩), hold]
      exact FileTree.slot_of_file hfile
  · -- an edited file is there, so a temporary in its place is its own
    obtain ⟨old, hold⟩ := h.file k hk
    rcases h.vacant j hj with hnone | hself
    · rw [he, hold] at hnone
      cases hnone
    · exact congrArg txnTmp (hself.symm.trans he)

end Jobs

/-! ### Transactions -/

section Sound

variable {s : WorkspaceFileService}

def JobOf (s : WorkspaceFileService) (e : EditOp) (j : Job) : Prop :=
  j.path = e.path ∧ s.Names e.path j.file ∧
    ∃ old, s.tree.node j.file = some (.file old) ∧ editBytes e old = some (.ok j.bytes)

theorem planEdit_eq_ok {e : EditOp} {bytes : List UInt8} (h : s.planEdit e = some (.ok bytes)) :
    ∃ f, JobOf s e ⟨e.path, f, bytes⟩ := by
  rw [planEdit] at h
  split at h
  · cases h
  · cases h
  · next old current hread =>
    split_ifs at h
    · cases h
    · obtain ⟨f, hnames, hnode, -⟩ := read_eq_ok hread
      exact ⟨f, rfl, hnames, old, hnode, h⟩

theorem plan_eq_ok (edits : List EditOp) : ∀ {planned : List (String × List UInt8)},
    s.plan edits = some (.ok planned) → ∃ jobs : List (EditOp × Job),
      edits = jobs.map Prod.fst ∧ planned = jobs.map (fun p => (p.2.path, p.2.bytes)) ∧
      ∀ p ∈ jobs, JobOf s p.1 p.2 ∧ s.planEdit p.1 = some (.ok p.2.bytes) := by
  induction edits with
  | nil =>
    intro planned h
    obtain rfl := Except.ok.inj (Option.some.inj h)
    exact ⟨[], rfl, rfl, fun p hp => absurd hp not_mem_nil⟩
  | cons e edits ih =>
    intro planned h
    rw [plan] at h
    split at h
    · cases h
    · cases h
    · next bytes hedit =>
      split at h
      · cases h
      · cases h
      · next rest hrest =>
        obtain rfl := Except.ok.inj (Option.some.inj h)
        obtain ⟨jobs, rfl, rfl, hjobs⟩ := ih hrest
        obtain ⟨f, hjob⟩ := planEdit_eq_ok hedit
        refine ⟨(e, ⟨e.path, f, bytes⟩) :: jobs, rfl, rfl, fun p hp => ?_⟩
        rcases mem_cons.mp hp with rfl | hp
        · exact ⟨hjob, hedit⟩
        · exact hjobs p hp

theorem ready_of_apart {jobs : List (EditOp × Job)} (hjobs : ∀ p ∈ jobs, JobOf s p.1 p.2)
    (hapart : s.Apart (jobs.map Prod.fst)) : Ready s (jobs.map Prod.snd) := by
  refine ⟨fun j hj => ?_, fun j hj => ?_, fun j hj => ?_, ?_⟩
  · obtain ⟨p, hp, rfl⟩ := mem_map.mp hj
    obtain ⟨hpath, hnames, -⟩ := hjobs p hp
    rw [hpath]
    exact hnames
  · obtain ⟨p, hp, rfl⟩ := mem_map.mp hj
    obtain ⟨-, -, old, hold, -⟩ := hjobs p hp
    exact ⟨old, hold⟩
  · obtain ⟨p, hp, rfl⟩ := mem_map.mp hj
    have hfree := hapart.2 p.1 (mem_map.mpr ⟨p, hp, rfl⟩)
    have hnames : s.resolve p.1.path = .ok p.2.file := (hjobs p hp).2.1
    rw [tmpFree, hnames] at hfree
    rw [Bool.or_eq_true, decide_eq_true_eq, decide_eq_true_eq] at hfree
    exact hfree
  · have hmap : (jobs.map Prod.fst).map s.tmpOf
        = ((jobs.map Prod.snd).map Job.tmp).map Except.ok := by
      rw [map_map, map_map, map_map]
      refine map_congr_left (fun p hp => ?_)
      have hnames : s.resolve p.1.path = .ok p.2.file := (hjobs p hp).2.1
      show (s.resolve p.1.path).map txnTmp = _
      rw [hnames]
      rfl
    have hnodup := hapart.1
    rw [hmap] at hnodup
    exact hnodup.of_map _

theorem commitAll_tree (planned : List (String × List UInt8)) : ∀ s : WorkspaceFileService,
    (commitAll planned s).1.tree = s.tree := by
  induction planned with
  | nil => intro s; rfl
  | cons p planned ih => intro s; exact ih _

theorem editsOf_eq_singleton {edits : List EditOp} {f : FilePath}
    (hnodup : (edits.map s.tmpOf).Nodup) (hne : s.editsOf edits f ≠ []) :
    ∃ e ∈ edits, s.Names e.path f ∧ s.editsOf edits f = [e] := by
  have htmp : ∀ e ∈ s.editsOf edits f, s.tmpOf e = .ok (txnTmp f) := by
    intro e he
    have hnames : s.resolve e.path = .ok f := of_decide_eq_true (mem_filter.mp he).2
    rw [tmpOf, hnames]
    rfl
  have hsub : ((s.editsOf edits f).map s.tmpOf).Nodup :=
    hnodup.sublist ((filter_sublist).map _)
  have hmem : ∀ e ∈ s.editsOf edits f, e ∈ edits ∧ s.Names e.path f := fun e he =>
    ⟨(mem_filter.mp he).1, of_decide_eq_true (mem_filter.mp he).2⟩
  cases hl : s.editsOf edits f with
  | nil => exact absurd hl hne
  | cons e rest =>
    rw [hl] at htmp hsub hmem
    cases rest with
    | nil =>
      obtain ⟨hin, hnames⟩ := hmem e mem_cons_self
      exact ⟨e, hin, hnames, rfl⟩
    | cons e' rest =>
      have hsame : s.tmpOf e = s.tmpOf e' := by
        rw [htmp e mem_cons_self, htmp e' (mem_cons_of_mem e mem_cons_self)]
      have hhead := (nodup_cons.mp hsub).1
      exact absurd (hsame ▸ mem_cons_self) hhead

/-- Where planning does not panic and, unless some edit is refused, the temporaries are
apart, a transaction is all or nothing. -/
theorem sound_of_apart {edits : List EditOp} (hfits : s.planFits edits = true)
    (hapart : s.Planned edits → s.Apart edits) : s.Sound edits := by
  rw [Sound, applyTransaction]
  cases hplan : s.plan edits with
  | none =>
    rw [plan_eq_none, hfits] at hplan
    cases hplan
  | some outcome =>
    cases outcome with
    | error e => exact ⟨fun f => rfl, rfl⟩
    | ok planned =>
      obtain ⟨jobs, rfl, rfl, hjobs⟩ := plan_eq_ok edits hplan
      have hall : s.Planned (jobs.map Prod.fst) := by
        intro e he
        obtain ⟨p, hp, rfl⟩ := mem_map.mp he
        exact ⟨p.2.bytes, (hjobs p hp).2⟩
      have hap := hapart hall
      have hready := ready_of_apart (fun p hp => (hjobs p hp).1) hap
      obtain ⟨t, hstage, htmp, hother⟩ := stage_spec _ s hready
      obtain ⟨t', hrename, hfiles, htmps, hothers⟩ :=
        renameAll_spec _ { s with tree := t } (staged_of_ready hready htmp hother)
      rw [map_map] at hstage
      dsimp only
      rw [show (jobs.map (fun p => (p.2.path, p.2.bytes)))
        = jobs.map ((fun j : Job => (j.path, j.bytes)) ∘ Prod.snd) from rfl, hstage]
      dsimp only
      rw [hrename]
      intro f _
      rw [commitAll_tree]
      refine ⟨fun hnone => ?_, fun hsome => ?_⟩
      · -- a file without edits: at most a temporary stood there
        have hfile : ∀ j ∈ jobs.map Prod.snd, f ≠ j.file := by
          intro j hj he
          obtain ⟨p, hp, rfl⟩ := mem_map.mp hj
          have hmem : p.1 ∈ s.editsOf (jobs.map Prod.fst) f :=
            mem_filter.mpr ⟨mem_map.mpr ⟨p, hp, rfl⟩,
              decide_eq_true (he ▸ (hjobs p hp).1.2.1)⟩
          rw [hnone] at hmem
          cases hmem
        by_cases htmpf : ∃ j ∈ jobs.map Prod.snd, f = j.tmp
        · obtain ⟨j, hj, rfl⟩ := htmpf
          rw [htmps j hj hfile]
          rcases hready.vacant j hj with hvacant | hself
          · exact hvacant.symm
          · exact absurd hself (hfile j hj)
        · have hout : ∀ j ∈ jobs.map Prod.snd, f ≠ j.tmp := fun j hj he => htmpf ⟨j, hj, he⟩
          rw [hothers f (fun j hj => ⟨hfile j hj, hout j hj⟩)]
          exact hother f hout
      · obtain ⟨e, he, hnames, hedits⟩ := editsOf_eq_singleton hap.1 hsome
        obtain ⟨p, hp, rfl⟩ := mem_map.mp he
        obtain ⟨⟨-, hfile, old, hold, hbytes⟩, -⟩ := hjobs p hp
        have hf : f = p.2.file := Except.ok.inj (hnames.symm.trans hfile)
        refine ⟨old, p.2.bytes, hf ▸ hold, ?_, ?_⟩
        · rw [hedits, editAll, hbytes]
          rfl
        · rw [hf]
          exact hfiles p.2 (mem_map.mpr ⟨p, hp, rfl⟩)

end Sound

/-- **Transactions are all or nothing** outside the service's own files, where no hunk that
planning reaches has more old lines than there are lines and, unless some edit is refused,
the temporaries are apart; that the hunks fit is needed. -/
theorem applyTransaction_sound (s : WorkspaceFileService) (edits : List EditOp) :
    (s.KeepsBooks ∧ (∀ e ∈ edits, s.Outside e.path) ∧ s.planFits edits = true ∧
      (s.Planned edits → s.Apart edits) → s.Sound edits) ∧
    (s.Sound edits → s.planFits edits = true) := by
  refine ⟨fun ⟨_, _, hfits, hapart⟩ => sound_of_apart hfits hapart, fun hsound => ?_⟩
  by_contra hfits
  rw [Bool.not_eq_true, ← plan_eq_none] at hfits
  rw [Sound, applyTransaction, hfits] at hsound
  exact hsound

def vacant : WorkspaceFileService :=
  ⟨["ws"], (FileTree.empty.createDirAll ["ws"]).getD .empty, .empty, []⟩

/-- Two files whose names differ in their extension, and a third. -/
def threeFiles : WorkspaceFileService :=
  (((vacant.create "a.rs" [97, 10]).1.create "a.txt" [98, 10]).1.create "b.rs" [99, 10]).1

def relabel (path : String) (old new : Char) : EditOp := ⟨path, 1, [⟨1, [[old]], [[new]]⟩]⟩

theorem applyTransaction_sound_threeFiles :
    threeFiles.Sound [relabel "a.rs" 'a' 'x', relabel "b.rs" 'c' 'y'] :=
  (applyTransaction_sound threeFiles [relabel "a.rs" 'a' 'x', relabel "b.rs" 'c' 'y']).1
    ⟨by decide +kernel, by decide +kernel, by decide +kernel, fun _ => by decide +kernel⟩

/-- Edits of `a.rs` and `a.txt` share a temporary.  It is renamed over `a.rs` with the text
meant for `a.txt`, the second rename finds nothing, and the call fails. -/
theorem not_sound_shared_tmp :
    let edits := [relabel "a.rs" 'a' 'x', relabel "a.txt" 'b' 'y']
    (threeFiles.applyTransaction edits).2 = some (.error (.io .io)) ∧
    threeFiles.tree.node ["ws", "a.rs"] = some (.file [97, 10]) ∧
    (threeFiles.applyTransaction edits).1.tree.node ["ws", "a.rs"] = some (.file [121, 10]) ∧
    ¬ threeFiles.Sound edits := by
  intro edits
  have herr : (threeFiles.applyTransaction edits).2 = some (.error (.io .io)) := by decide +kernel
  have hbefore : threeFiles.tree.node ["ws", "a.rs"] = some (.file [97, 10]) := by decide +kernel
  have hafter : (threeFiles.applyTransaction edits).1.tree.node ["ws", "a.rs"]
      = some (.file [121, 10]) := by decide +kernel
  refine ⟨herr, hbefore, hafter, fun hsound => ?_⟩
  rw [Sound] at hsound
  generalize threeFiles.applyTransaction edits = result at herr hafter hsound
  obtain ⟨s', outcome⟩ := result
  subst herr
  have hsame := hsound.1 ["ws", "a.rs"]
  rw [hafter, hbefore] at hsame
  revert hsame
  decide

end WorkspaceFileService

end Workspace

end Modbit
