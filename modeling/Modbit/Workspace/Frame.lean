import Modbit.Workspace.Calls
import Modbit.Workspace.Transactions

/-!
# What a call leaves alone

`fileAt_step`: a file that a call does not touch is after the call what it was before it,
whether the call succeeds or not.  Every call works on what its paths resolve to and on
their temporaries, once its directories are made, so each operation of the file system is
followed to its entry or its location there.
-/

namespace Modbit

open Lib List

namespace Workspace

namespace WorkspaceFileService

variable {s : WorkspaceFileService} {f resolved work : FilePath} {path : String} {c : Call}

theorem work_ne (h : ¬ Touches s c f) (hpath : path ∈ c.paths)
    (hres : s.resolve path = .ok resolved) (hwork : work ∈ c.workFiles resolved) :
    (s.ground c).entry work ≠ some f ∧ (s.ground c).place work ≠ some f ∧
      (c.moves = true → ∀ e, (s.ground c).entry work = some e → ¬ e <+: f) := by
  have hmem : work ∈ s.works c path := by
    rw [works, hres]
    exact hwork
  refine ⟨fun he => ?_, fun hp => ?_, fun hmoves e he hpre => ?_⟩
  · exact h ⟨path, hpath, Or.inr ⟨work, hmem, Or.inl he⟩⟩
  · exact h ⟨path, hpath, Or.inr ⟨work, hmem, Or.inr (Or.inl hp)⟩⟩
  · exact h ⟨path, hpath, Or.inr ⟨work, hmem, Or.inr (Or.inr ⟨hmoves, e, he, hpre⟩)⟩⟩

/-! ### Single files -/

def Leaves {α : Type} (t : FileTree) (f : FilePath) (a : Answer α) : Prop :=
  a.1.tree.fileAt f = t.fileAt f

theorem leaves_resolving {α : Type} {next : FilePath → Answer α}
    (h : ∀ resolved, s.resolve path = .ok resolved → Leaves s.tree f (next resolved)) :
    Leaves s.tree f (s.resolving path next) := by
  rw [resolving]
  cases hres : s.resolve path with
  | error e => exact rfl
  | ok resolved => exact h resolved hres

theorem leaves_doing {α : Type} {op : FileTree → Option FileTree}
    {next : WorkspaceFileService → Answer α}
    (h : ∀ t, op s.tree = some t → t.fileAt f = s.tree.fileAt f ∧
      Leaves t f (next { s with tree := t })) : Leaves s.tree f (s.doing op next) := by
  rw [doing]
  cases hop : op s.tree with
  | none => exact rfl
  | some t => exact (h t hop).2.trans (h t hop).1

variable {bytes : List UInt8}

theorem fileAt_writeRename {t t₁ t₂ : FileTree} {tmp : FilePath}
    (hwrite : t.write tmp bytes = some t₁) (hrename : t₁.rename tmp resolved = some t₂)
    (htmp : t.entry tmp ≠ some f) (hentry : t.entry resolved ≠ some f) :
    t₂.fileAt f = t₁.fileAt f := by
  obtain ⟨-, hkeeps'⟩ := FileTree.write_keeps hwrite
  have hnotDir : ∀ e, t₁.entry tmp = some e → t₁.node e ≠ some .dir :=
    fun e he => FileTree.node_ne_dir_of_write hwrite he
  obtain ⟨e, d, he, hd, -, ⟨-, rfl⟩ | ⟨-, -, hmoved⟩⟩ := FileTree.rename_eq_some hrename hnotDir
  · rfl
  · refine FileTree.fileAt_congr ((hmoved f).trans ?_)
    rw [if_neg, if_neg]
    · rintro rfl
      exact hentry (FileTree.entry_of_keeps hkeeps' hd)
    · rintro rfl
      exact htmp (FileTree.entry_of_keeps hkeeps' he)

theorem fileAt_write {t t₁ : FileTree} {p : FilePath}
    (hwrite : t.write p bytes = some t₁) (hplace : t.place p ≠ some f) :
    t₁.fileAt f = t.fileAt f := by
  obtain ⟨q, hq, -, hnode⟩ := FileTree.write_eq_some hwrite
  refine FileTree.fileAt_congr ((hnode f).trans (if_neg ?_))
  rintro rfl
  exact hplace hq

theorem leaves_create (h : ¬ Touches s (.create path bytes) f) :
    Leaves s.tree f (s.create path bytes) := by
  rw [create]
  refine leaves_resolving (fun resolved hres => ?_)
  split_ifs
  · exact rfl
  · refine leaves_doing (fun t ht => ⟨(FileTree.createDirAll_adds ht).fileAt_eq f, ?_⟩)
    refine leaves_doing (fun t' ht' => ⟨?_, rfl⟩)
    have hground : s.ground (.create path bytes) = t := by
      simp only [ground, hres, ht, Option.getD_some]
    have hwork := work_ne h mem_cons_self hres mem_cons_self
    rw [hground] at hwork
    exact fileAt_write ht' hwork.2.1

/-- `apply_patch` ends in `replace` and touches what that touches. -/
theorem leaves_replace {expected : Nat} (h : ¬ Touches s (.replace path bytes expected) f) :
    Leaves s.tree f (s.replace path bytes expected) := by
  rw [replace]
  refine leaves_resolving (fun resolved hres => ?_)
  dsimp only
  split_ifs
  · exact rfl
  · refine leaves_doing (fun t ht => ⟨(FileTree.createDirAll_adds ht).fileAt_eq f, ?_⟩)
    have hground : s.ground (.replace path bytes expected) = t := by
      simp only [ground, hres, ht, Option.getD_some]
    have hfinal := work_ne h mem_cons_self hres mem_cons_self
    have htmp := work_ne h mem_cons_self hres (mem_cons_of_mem _ mem_cons_self)
    rw [hground] at hfinal htmp
    refine leaves_doing (fun t₁ hwrite => ⟨fileAt_write hwrite htmp.2.1, ?_⟩)
    refine leaves_doing (fun t₂ hrename => ⟨?_, rfl⟩)
    exact fileAt_writeRename hwrite hrename htmp.1 hfinal.1

theorem leaves_applyPatch {expected : Nat} {hunks : List PatchHunk}
    (h : ¬ Touches s (.applyPatch path expected hunks) f) :
    Leaves s.tree f (s.applyPatch path expected hunks) := by
  rw [applyPatch]
  split
  · exact rfl
  · split
    · exact rfl
    · exact leaves_replace h

theorem leaves_adopt (path : String) : Leaves s.tree f (s.adopt path) := by
  rw [adopt]
  refine leaves_resolving (fun resolved _ => ?_)
  split
  · exact rfl
  · split
    · exact rfl
    · exact rfl

theorem leaves_delete (h : ¬ Touches s (.delete path) f) : Leaves s.tree f (s.delete path) := by
  rw [delete]
  refine leaves_resolving (fun resolved hres => leaves_doing (fun t ht => ⟨?_, rfl⟩))
  obtain ⟨q, hentry, -, -, hnode⟩ := FileTree.removeFile_eq_some ht
  have hwork := work_ne h mem_cons_self hres mem_cons_self
  refine FileTree.fileAt_congr ((hnode f).trans (if_neg ?_))
  rintro rfl
  exact hwork.1 hentry

theorem leaves_moveFile {source target : String} (h : ¬ Touches s (.moveFile source target) f) :
    Leaves s.tree f (s.moveFile source target) := by
  rw [moveFile]
  refine leaves_resolving (fun resolvedFrom hsource => leaves_resolving (fun resolvedTo htarget => ?_))
  refine leaves_doing (fun t ht => ⟨(FileTree.createDirAll_adds ht).fileAt_eq f, ?_⟩)
  refine leaves_doing (fun t₁ ht₁ => ⟨?_, rfl⟩)
  have hground : s.ground (.moveFile source target) = t := by
    simp only [ground, htarget, ht, Option.getD_some]
  have hfrom := work_ne h mem_cons_self hsource mem_cons_self
  have hto := work_ne h (mem_cons_of_mem _ mem_cons_self) htarget mem_cons_self
  rw [hground] at hfrom hto
  obtain ⟨e, d, he, hd, hframe⟩ := FileTree.rename_frame ht₁
  exact FileTree.fileAt_congr (hframe f (hfrom.2.2 rfl e he) (hto.2.2 rfl d hd))

/-! ### Transactions -/

theorem stage_frame (jobs : List Job) : ∀ s : WorkspaceFileService,
    (∀ j ∈ jobs, s.Names j.path j.file ∧ ∃ bytes, s.tree.node j.file = some (.file bytes)) →
    ∃ t r, stage (jobs.map (fun j => (j.path, j.bytes))) s = ({ s with tree := t }, r) ∧
      t.Keeps s.tree ∧ s.tree.Keeps t ∧
      ((∀ j ∈ jobs, s.tree.place j.tmp ≠ some f) → t.fileAt f = s.tree.fileAt f) ∧
      ∀ staged, r = .ok staged → staged = jobs.map (fun j => (j.tmp, j.file)) ∧
        ∀ j ∈ jobs, s.tree.node j.tmp ≠ some .dir := by
  induction jobs with
  | nil =>
    intro s _
    refine ⟨s.tree, .ok [], rfl, .refl _, .refl _, fun _ => rfl, fun staged h => ?_⟩
    exact ⟨(Except.ok.inj h).symm, fun j hj => absurd hj not_mem_nil⟩
  | cons j jobs ih =>
    intro s hjobs
    obtain ⟨hnames, old, hold⟩ := hjobs j mem_cons_self
    have hres : s.resolve j.path = .ok j.file := hnames
    have hdirs := FileTree.createDirAll_of_dir (FileTree.slot_of_file hold).2.1
    rw [map_cons, stage, hres]
    dsimp only
    rw [hdirs]
    dsimp only
    cases hwrite : s.tree.write (txnTmp j.file) j.bytes with
    | none =>
      exact ⟨s.tree, .error (.io .io), rfl, .refl _, .refl _, fun _ => rfl,
        fun staged h => by cases h⟩
    | some t₁ =>
      obtain ⟨q, hplace, hslot, hnode⟩ := FileTree.write_eq_some hwrite
      obtain ⟨hkeeps, hkeeps'⟩ := FileTree.write_keeps hwrite
      have hgrows := FileTree.grows_of_file hslot.2.2 (FileTree.place_notLink hplace) hnode
      have hnamed : ∀ k ∈ jobs, ({ s with tree := t₁ } : WorkspaceFileService).Names k.path k.file ∧
          ∃ bytes, t₁.node k.file = some (.file bytes) := by
        intro k hk
        obtain ⟨hname, hfile⟩ := hjobs k (mem_cons_of_mem j hk)
        exact ⟨names_of_grows hgrows hname hfile, hgrows.2 _ hfile⟩
      obtain ⟨t, r, hstage, hback, hforth, hframe, hok⟩ := ih { s with tree := t₁ } hnamed
      have hnotDir : s.tree.node j.tmp ≠ some .dir := by
        intro hdir
        have hself := FileTree.place_of_node hdir (fun target hl => by cases hl)
        obtain rfl := Option.some.inj (hplace.symm.trans hself)
        exact hslot.2.2 hdir
      dsimp only at hback hforth hframe hok ⊢
      have hleaves : (∀ k ∈ j :: jobs, s.tree.place k.tmp ≠ some f) →
          t.fileAt f = s.tree.fileAt f := by
        intro hf
        refine (hframe (fun k hk hp => ?_)).trans (fileAt_write hwrite (hf j mem_cons_self))
        exact hf k (mem_cons_of_mem j hk) (FileTree.place_of_keeps hkeeps' hp)
      rw [hstage]
      cases r with
      | error e =>
        exact ⟨t, .error e, rfl, hback.trans hkeeps', hkeeps.trans hforth, hleaves,
          fun staged h => by cases h⟩
      | ok staged =>
        obtain ⟨rfl, hdirs'⟩ := hok staged rfl
        refine ⟨t, _, rfl, hback.trans hkeeps', hkeeps.trans hforth, hleaves, fun staged h => ?_⟩
        refine ⟨(Except.ok.inj h).symm, fun k hk => ?_⟩
        rcases mem_cons.mp hk with rfl | hk
        · exact hnotDir
        · exact fun hdir => hdirs' k hk ((hkeeps k.tmp).1 hdir)

variable {t : FileTree}

theorem entry_tmp {j : Job} (hne : j.file ≠ [])
    (hdir : t.node j.file.dropLast = some .dir) : t.entry j.tmp = some j.tmp := by
  refine FileTree.entry_of_dir (FilePath.withExtension_ne_nil _ hne) ?_
  rw [Job.tmp, txnTmp, FilePath.dropLast_withExtension _ hne]
  exact hdir

theorem renameAll_frame (jobs : List Job) : ∀ s : WorkspaceFileService,
    (∀ j ∈ jobs, j.file ≠ [] ∧ s.tree.node j.file.dropLast = some .dir ∧
      s.tree.node j.tmp ≠ some .dir) →
    (∀ j ∈ jobs, f ≠ j.tmp ∧ f ≠ j.file) →
    (renameAll (jobs.map (fun j => (j.tmp, j.file))) s).1.tree.fileAt f = s.tree.fileAt f := by
  induction jobs with
  | nil => exact fun s _ _ => rfl
  | cons j jobs ih =>
    intro s hjobs hf
    obtain ⟨hne, hdir, htmp⟩ := hjobs j mem_cons_self
    rw [map_cons, renameAll]
    cases hrename : s.tree.rename j.tmp j.file with
    | none => rfl
    | some t =>
      have hentry := entry_tmp hne hdir
      have hnotDir : ∀ e, s.tree.entry j.tmp = some e → s.tree.node e ≠ some .dir := by
        intro e he
        rw [← Option.some.inj (hentry.symm.trans he)]
        exact htmp
      obtain ⟨e, d, he, hd, -, hmoved⟩ := FileTree.rename_eq_some hrename hnotDir
      obtain rfl := Option.some.inj (hentry.symm.trans he)
      obtain rfl := Option.some.inj ((FileTree.entry_of_dir hne hdir).symm.trans hd)
      have hfj := hf j mem_cons_self
      -- directories stay directories, and nothing becomes one
      have hstays : ∀ x, t.node x = some .dir ↔ s.tree.node x = some .dir := by
        intro x
        rcases hmoved with ⟨-, rfl⟩ | ⟨-, hslot, hnode⟩
        · exact Iff.rfl
        · rw [hnode]
          split_ifs with hx hx'
          · rw [hx]
            exact iff_of_false (fun h => by cases h) htmp
          · rw [hx']
            exact iff_of_false htmp hslot.2.2
          · exact Iff.rfl
      have hsame : t.fileAt f = s.tree.fileAt f := by
        rcases hmoved with ⟨-, rfl⟩ | ⟨-, -, hnode⟩
        · rfl
        · refine FileTree.fileAt_congr ((hnode f).trans ?_)
          rw [if_neg hfj.1, if_neg hfj.2]
      refine (ih { s with tree := t } (fun k hk => ?_) (fun k hk => ?_)).trans hsame
      · obtain ⟨hne', hdir', htmp'⟩ := hjobs k (mem_cons_of_mem j hk)
        exact ⟨hne', (hstays _).mpr hdir', fun h => htmp' ((hstays _).mp h)⟩
      · exact hf k (mem_cons_of_mem j hk)

theorem fileAt_applyTransaction {edits : List EditOp}
    (h : ¬ Touches s (.applyTransaction edits) f) :
    (s.applyTransaction edits).1.tree.fileAt f = s.tree.fileAt f := by
  rw [applyTransaction]
  split
  · rfl
  · rfl
  · next planned hplan =>
    obtain ⟨jobs, rfl, rfl, hjobs⟩ := plan_eq_ok edits hplan
    have hnamed : ∀ j ∈ jobs.map Prod.snd, s.Names j.path j.file ∧
        ∃ bytes, s.tree.node j.file = some (.file bytes) := by
      intro j hj
      obtain ⟨p, hp, rfl⟩ := mem_map.mp hj
      obtain ⟨hpath, hnames, old, hold, -⟩ := (hjobs p hp).1
      rw [hpath]
      exact ⟨hnames, old, hold⟩
    -- neither the edited files nor their temporaries are at the location
    have hwork : ∀ j ∈ jobs.map Prod.snd, f ≠ j.tmp ∧ f ≠ j.file ∧
        s.tree.place j.tmp ≠ some f := by
      intro j hj
      obtain ⟨p, hp, rfl⟩ := mem_map.mp hj
      obtain ⟨hpath, hnames, old, hold, -⟩ := (hjobs p hp).1
      have hslot := FileTree.slot_of_file hold
      have hmem : p.1.path ∈ (Call.applyTransaction (jobs.map Prod.fst)).paths :=
        mem_map.mpr ⟨p.1, mem_map.mpr ⟨p, hp, rfl⟩, rfl⟩
      have hfinal := work_ne h hmem hnames mem_cons_self
      have htmp := work_ne h hmem hnames (mem_cons_of_mem _ mem_cons_self)
      refine ⟨?_, ?_, htmp.2.1⟩
      · rintro rfl
        exact htmp.1 (entry_tmp hslot.1 hslot.2.1)
      · rintro rfl
        exact hfinal.1 (FileTree.entry_of_dir hslot.1 hslot.2.1)
    obtain ⟨t, r, hstage, hback, hforth, hframe, hok⟩ := @stage_frame f (jobs.map Prod.snd) s hnamed
    have hstaged := hframe (fun j hj => (hwork j hj).2.2)
    rw [map_map] at hstage
    have hplanned : jobs.map (fun p => (p.2.path, p.2.bytes))
        = jobs.map ((fun j : Job => (j.path, j.bytes)) ∘ Prod.snd) := rfl
    rw [hplanned, hstage]
    cases r with
    | error e => exact hstaged
    | ok staged =>
      obtain ⟨rfl, hdirs⟩ := hok staged rfl
      have hrenamed := @renameAll_frame f (jobs.map Prod.snd) { s with tree := t }
        (fun j hj => ?_) (fun j hj => ⟨(hwork j hj).1, (hwork j hj).2.1⟩)
      · dsimp only
        generalize renameAll _ { s with tree := t } = result at hrenamed
        obtain ⟨s', r'⟩ := result
        cases r' with
        | error e => exact hrenamed.trans hstaged
        | ok u =>
          rw [commitAll_tree]
          exact hrenamed.trans hstaged
      · obtain ⟨-, old, hold⟩ := hnamed j hj
        have hslot := FileTree.slot_of_file hold
        exact ⟨hslot.1, (hforth _).1 hslot.2.1, fun hdir => hdirs j hj ((hback _).1 hdir)⟩

/-! ### Any call -/

/-- **A call leaves the files that it does not touch.** -/
theorem fileAt_step (h : ¬ Touches s c f) : (s.step c).1.tree.fileAt f = s.tree.fileAt f := by
  cases c with
  | create path bytes => exact leaves_create h
  | read path => rfl
  | replace path bytes expected => exact leaves_replace h
  | applyPatch path expected hunks => exact leaves_applyPatch h
  | applyTransaction edits => exact fileAt_applyTransaction h
  | adopt path => exact leaves_adopt path
  | delete path => exact leaves_delete h
  | moveFile source target => exact leaves_moveFile h

theorem touches_of_mutates (h : Mutates s c f) : Touches s c f := by
  by_contra htouch
  rcases h.2 with ⟨path, hpath, hloc⟩ | hchanged
  · exact htouch ⟨path, hpath, Or.inl hloc⟩
  · exact hchanged (fileAt_step htouch)

end WorkspaceFileService

end Workspace

end Modbit
