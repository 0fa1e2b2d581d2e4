import Modbit.Lib.Catalogue
import Modbit.Workspace.Frame

/-!
# The journal

`replay` is what a reader of the journal makes of it.  The service is `Tracked` if the
ledger is an accurate catalogue of the files under the root and the journal replays to
it.  Over a run of successful calls this is kept by every call that is `Journaled`:
one that changes no file listed under another text, moves only what is listed, and is not
a transaction, `reproduces_of_journaled`.

A transaction changes files and says nothing of it to the journal: `transaction_silent`.
-/

namespace Modbit

open Lib List

namespace Workspace

/-! ### Replaying -/

def FileChangeEvent.apply (m : OrdMap String (String × Nat)) (e : FileChangeEvent) :
    OrdMap String (String × Nat) :=
  match e.changeKind with
  | .created | .modified => m.insert e.path (e.sha256, e.fileRevision)
  | .deleted => m.erase e.path

def replay (journal : List FileChangeEvent) : OrdMap String (String × Nat) :=
  journal.foldl FileChangeEvent.apply .empty

theorem replay_concat (journal : List FileChangeEvent) (e : FileChangeEvent) :
    replay (journal ++ [e]) = e.apply (replay journal) := by
  rw [replay, foldl_append]
  rfl

theorem find?_replay_put (journal : List FileChangeEvent) {e : FileChangeEvent}
    (he : e.changeKind ≠ .deleted) (k : String) :
    (replay (journal ++ [e])).find? k
      = if k = e.path then some (e.sha256, e.fileRevision) else (replay journal).find? k := by
  rw [replay_concat, FileChangeEvent.apply]
  cases hk : e.changeKind with
  | created => exact OrdMap.find?_insert _ _ _ _
  | modified => exact OrdMap.find?_insert _ _ _ _
  | deleted => exact absurd hk he

theorem find?_replay_deleted (journal : List FileChangeEvent) {e : FileChangeEvent}
    (he : e.changeKind = .deleted) (k : String) :
    (replay (journal ++ [e])).find? k = if k = e.path then none else (replay journal).find? k := by
  rw [replay_concat, FileChangeEvent.apply, he]
  exact OrdMap.find?_erase _ _ _

namespace RevisionMap

variable (m : RevisionMap)

/-- The digest and the revision of a path that is there. -/
def listed (k : String) : Option (String × Nat) :=
  (m.live k).map (fun r => (r.sha256, r.revision))

theorem entry_of_live {k : String} {r : FileRecord} (h : m.live k = some r) : m.entry k = r := by
  have hfind := (Option.filter_eq_some_iff.mp h).1
  rw [entry, hfind]
  rfl

end RevisionMap

namespace WorkspaceFileService

variable {s : WorkspaceFileService} {r f resolved : FilePath} {path : String}

/-- A text that `resolve` does not refuse by itself. -/
def Spelled (path : String) : Prop := ¬ Text.startsWith path "/" = true ∧ ".." ∉ components path

/-- The ledger lists the files under the root, and the journal replays to it. -/
structure Tracked (s : WorkspaceFileService) (r : FilePath) : Prop where
  rooted : s.tree.Rooted s.root r
  spelled : ∀ k, s.revisions.live k ≠ none → Spelled k
  accurate : Accurate (fun k => r ++ components k) (fun x => r <+: x)
    (fun x => (s.tree.fileAt x).map Sha256.hex) (fun k => (s.revisions.live k).map (·.sha256))
  journal : ∀ k, (replay s.journal).find? k = s.revisions.listed k

/-! ### Paths under the root -/

theorem resolve_rooted (hr : s.tree.Rooted s.root r) (h : s.resolve path = .ok resolved) :
    (components path = [] ∧ resolved = r) ∨
      (components path ≠ [] ∧ ∃ base, s.tree.Rooted base r ∧ resolved = base ++ components path) := by
  rcases resolve_eq_ok h with ⟨hc, -⟩ | ⟨hc, rfl⟩
  · obtain rfl := hr.place_eq _ (FileTree.canonicalize_eq_some.mp hc).1
    by_cases hcs : components path = []
    · rw [hcs, append_nil]
      exact Or.inl ⟨rfl, rfl⟩
    · exact Or.inr ⟨hcs, r, hr.self, rfl⟩
  · refine Or.inr ⟨fun hcs => ?_, s.root, hr, rfl⟩
    have hroot : s.tree.canonicalize s.root = some r := by
      refine FileTree.canonicalize_eq_some.mpr ⟨hr.place, ?_⟩
      rw [hr.dir]
      exact Option.some_ne_none _
    rw [hcs, append_nil, hroot] at hc
    cases hc

theorem location_of_file (hr : s.tree.Rooted s.root r) (hspelled : Spelled path)
    (hfile : s.tree.fileAt (r ++ components path) ≠ none) :
    s.location path = some (r ++ components path) := by
  obtain ⟨bytes, hbytes⟩ := Option.ne_none_iff_exists'.mp hfile
  have hnode := FileTree.node_of_fileAt hbytes
  have hsome : s.tree.node (r ++ components path) ≠ none := by
    rw [hnode]
    exact Option.some_ne_none _
  have hcanonical : s.tree.canonicalize (s.root ++ components path) = some (r ++ components path) :=
    FileTree.canonicalize_eq_some.mpr ⟨hr.place_of_node _ hsome, hsome⟩
  have hcontained : s.contained path (r ++ components path) = .ok () := by
    refine contained_eq_ok.mpr ⟨r, FileTree.canonicalize_eq_some.mpr ⟨hr.place, ?_⟩, ?_⟩
    · rw [hr.dir]
      exact Option.some_ne_none _
    · exact prefix_append _ _
  have hres : s.resolve path = .ok (r ++ components path) := by
    rw [resolve, if_neg hspelled.1, if_neg hspelled.2]
    dsimp only
    rw [hcanonical]
    dsimp only
    rw [hcontained]
    rfl
  rw [location, hres]
  dsimp only
  rw [FileTree.createDirAll_of_dir (FileTree.slot_of_file hnode).2.1, Option.bind_some]
  exact FileTree.place_of_node hnode (fun target hl => by cases hl)

theorem Tracked.location_eq (h : s.Tracked r) {k : String} (hk : s.revisions.live k ≠ none) :
    s.location k = some (r ++ components k) := by
  refine location_of_file h.rooted (h.spelled k hk) (fun hnone => ?_)
  obtain ⟨rec, hrec⟩ := Option.ne_none_iff_exists'.mp hk
  have hdisk := h.accurate.lists k rec.sha256 (by rw [hrec]; rfl)
  rw [hnone] at hdisk
  cases hdisk

/-! ### What successful calls do -/

/-- A call put bytes into the file of a path. -/
structure Wrote (s s' : WorkspaceFileService) (r : FilePath) (path : String)
    (bytes : List UInt8) : Prop where
  spelled : Spelled path
  root : s'.root = s.root
  keeps : s.tree.Keeps s'.tree
  file : s'.tree.fileAt (r ++ components path) = some bytes
  others : ∀ x, x ≠ r ++ components path → s'.tree.fileAt x ≠ none →
    s'.tree.fileAt x = s.tree.fileAt x
  revisions : s'.revisions = s.revisions.record path bytes
  journal : ∃ e, s'.journal = s.journal ++ [e] ∧ e.changeKind ≠ .deleted ∧ e.path = path ∧
    (e.sha256, e.fileRevision)
      = ((s'.revisions.entry path).sha256, (s'.revisions.entry path).revision)

variable {bytes : List UInt8} {rev : Nat}

theorem wrote_create (hr : s.tree.Rooted s.root r)
    (h : (s.create path bytes).2 = .ok rev) : Wrote s (s.create path bytes).1 r path bytes := by
  rw [create] at h ⊢
  obtain ⟨resolved, hnames, heq⟩ := resolving_eq_ok h
  rw [heq] at h ⊢
  have hvacant : ¬ s.tree.has resolved = true := by
    intro hhas
    rw [if_pos hhas] at h
    cases h
  rw [if_neg hvacant] at h ⊢
  obtain ⟨t, ht, heq⟩ := doing_eq_ok h
  rw [heq] at h ⊢
  obtain ⟨t₁, ht₁, heq⟩ := doing_eq_ok h
  rw [heq]
  have hkeeps := (FileTree.createDirAll_adds ht).keeps
  obtain ⟨q, hplace, -, hnode⟩ := FileTree.write_eq_some ht₁
  obtain rfl : q = r ++ components path := by
    rcases resolve_rooted hr hnames with ⟨-, rfl⟩ | ⟨-, base, hbase, rfl⟩
    · refine absurd ?_ hvacant
      rw [FileTree.has, FileTree.canonicalize_eq_some.mpr ⟨hr.self.place, ?_⟩]
      · rfl
      · rw [hr.dir]
        exact Option.some_ne_none _
    · exact (hbase.of_keeps hkeeps).place_eq _ hplace
  refine ⟨startsWith_of_names hnames, rfl, hkeeps.trans (FileTree.write_keeps ht₁).1, ?_,
    fun x hx _ => ?_, rfl, _, rfl, ?_, rfl, rfl⟩
  · show t₁.fileAt _ = _
    rw [FileTree.fileAt, hnode, if_pos rfl]
  · show t₁.fileAt x = _
    rw [FileTree.fileAt_congr ((hnode x).trans (if_neg hx))]
    exact (FileTree.createDirAll_adds ht).fileAt_eq x
  · exact fun hk => by cases hk

theorem wrote_replace {expected rev : Nat} (hr : s.tree.Rooted s.root r)
    (h : (s.replace path bytes expected).2 = .ok rev) :
    Wrote s (s.replace path bytes expected).1 r path bytes := by
  rw [replace] at h ⊢
  obtain ⟨resolved, hnames, heq⟩ := resolving_eq_ok h
  rw [heq] at h ⊢
  have hfresh : ¬ (s.fileRevision path).getD 0 ≠ expected := by
    intro hstale
    rw [if_pos hstale] at h
    cases h
  rw [if_neg hfresh] at h ⊢
  obtain ⟨t, ht, heq⟩ := doing_eq_ok h
  rw [heq] at h ⊢
  obtain ⟨t₁, hwrite, heq⟩ := doing_eq_ok h
  rw [heq] at h ⊢
  obtain ⟨t₂, hrename, heq⟩ := doing_eq_ok h
  rw [heq]
  have hadds := FileTree.createDirAll_adds ht
  rcases resolve_rooted hr hnames with ⟨-, rfl⟩ | ⟨hcs, base, hbase, rfl⟩
  · -- a file is not renamed over the root
    have hr₁ := (hr.self.of_keeps hadds.keeps).of_keeps (FileTree.write_keeps hwrite).1
    obtain ⟨e, d, -, hd, -⟩ := FileTree.rename_frame hrename
    have hdir := FileTree.rename_ne_dir hrename
      (fun e he => FileTree.node_ne_dir_of_write hwrite he) hd
    rw [FileTree.entry_self hr₁.dir hd] at hdir
    exact absurd hr₁.dir hdir
  · rw [FilePath.withExtension_base _ _ hcs] at hwrite hrename
    obtain ⟨hkeeps, hfile, hothers⟩ := (hbase.of_keeps hadds.keeps).replace hcs
      (FilePath.withExtension_ne_nil _ hcs) hwrite hrename
    refine ⟨startsWith_of_names hnames, rfl, hadds.keeps.trans hkeeps, hfile, fun x hx hsome => ?_,
      rfl, _, rfl, fun hk => (by cases hk), rfl, rfl⟩
    exact (hothers x hx hsome).trans (hadds.fileAt_eq x)

theorem wrote_applyPatch {expected rev : Nat} {hunks : List PatchHunk}
    (hr : s.tree.Rooted s.root r) (h : (s.applyPatch path expected hunks).2 = .ok rev) :
    ∃ bytes, Wrote s (s.applyPatch path expected hunks).1 r path bytes := by
  rw [applyPatch] at h ⊢
  split at h
  · cases h
  · split at h
    · cases h
    · next lines _ => exact ⟨joinLines lines, wrote_replace hr h⟩

structure Removed (s s' : WorkspaceFileService) (r : FilePath) (path : String) : Prop where
  root : s'.root = s.root
  keeps : s.tree.Keeps s'.tree
  others : ∀ x, s'.tree.fileAt x ≠ none →
    x ≠ r ++ components path ∧ s'.tree.fileAt x = s.tree.fileAt x
  revisions : s'.revisions = s.revisions.bury path
  journal : ∃ e, s'.journal = s.journal ++ [e] ∧ e.changeKind = .deleted ∧ e.path = path

theorem removed_delete (hr : s.tree.Rooted s.root r)
    (h : (s.delete path).2 = .ok rev) : Removed s (s.delete path).1 r path := by
  rw [delete] at h ⊢
  obtain ⟨resolved, hnames, heq⟩ := resolving_eq_ok h
  rw [heq] at h ⊢
  obtain ⟨t, ht, heq⟩ := doing_eq_ok h
  rw [heq]
  obtain ⟨q, hentry, hslot, -, hnode⟩ := FileTree.removeFile_eq_some ht
  rcases resolve_rooted hr hnames with ⟨-, rfl⟩ | ⟨hcs, base, hbase, rfl⟩
  · rw [FileTree.entry_self hr.dir hentry] at hslot
    exact absurd hr.dir hslot.2.2
  obtain rfl := hbase.entry_eq hcs hentry
  refine ⟨rfl, fun x => ?_, fun x hsome => ?_, rfl, _, rfl, rfl, rfl⟩
  · show (_ → t.node x = _) ∧ ∀ target, _ ↔ t.node x = _
    rw [hnode]
    split_ifs with hx
    · rw [hx]
      refine ⟨fun hdir => absurd hdir hslot.2.2, fun target => iff_of_false ?_ ?_⟩
      · exact hr.notLink _ (prefix_append _ _) target
      · exact fun hl => by cases hl
    · exact ⟨id, fun target => Iff.rfl⟩
  · have hx : x ≠ r ++ components path := by
      rintro rfl
      refine hsome ?_
      show t.fileAt _ = none
      rw [FileTree.fileAt, hnode, if_pos rfl]
    exact ⟨hx, FileTree.fileAt_congr ((hnode x).trans (if_neg hx))⟩

structure Moved (s s' : WorkspaceFileService) (r : FilePath) (source target : String)
    (bytes : List UInt8) : Prop where
  spelled : Spelled target
  root : s'.root = s.root
  keeps : s.tree.Keeps s'.tree
  file : s'.tree.fileAt (r ++ components target) = some bytes
  others : ∀ x, x ≠ r ++ components target → s'.tree.fileAt x ≠ none →
    x ≠ r ++ components source ∧ s'.tree.fileAt x = s.tree.fileAt x
  revisions : s'.revisions = s.revisions.carry source target
  journal : ∃ e e', s'.journal = s.journal ++ [e] ++ [e'] ∧ e.changeKind = .deleted ∧
    e.path = source ∧ e'.changeKind ≠ .deleted ∧ e'.path = target ∧
    (e'.sha256, e'.fileRevision)
      = ((s.revisions.entry source).sha256, (s.revisions.entry source).revision + 1)

theorem moved_moveFile {source target : String}
    (hr : s.tree.Rooted s.root r) (hfile : s.tree.fileAt (r ++ components source) = some bytes)
    (h : (s.moveFile source target).2 = .ok rev) :
    Moved s (s.moveFile source target).1 r source target bytes := by
  rw [moveFile] at h ⊢
  obtain ⟨resolvedFrom, hsource, heq⟩ := resolving_eq_ok h
  rw [heq] at h ⊢
  obtain ⟨resolvedTo, htarget, heq⟩ := resolving_eq_ok h
  rw [heq] at h ⊢
  obtain ⟨t, ht, heq⟩ := doing_eq_ok h
  rw [heq] at h ⊢
  obtain ⟨t₁, hrename, heq⟩ := doing_eq_ok h
  rw [heq]
  have hadds := FileTree.createDirAll_adds ht
  have hfile' : t.node (r ++ components source) = some (.file bytes) :=
    FileTree.node_of_fileAt ((hadds.fileAt_eq _).trans hfile)
  rcases resolve_rooted hr hsource with ⟨hnil, -⟩ | ⟨hcs, base, hbase, rfl⟩
  · rw [hnil, append_nil] at hfile
    rw [FileTree.fileAt, hr.dir] at hfile
    cases hfile
  have hbase' := hbase.of_keeps hadds.keeps
  rcases resolve_rooted hr htarget with ⟨-, rfl⟩ | ⟨hcs', base', hbase₁, rfl⟩
  · -- a file is not renamed over the root
    have hr' := hr.of_keeps hadds.keeps
    obtain ⟨e, d, -, hd, -⟩ := FileTree.rename_frame hrename
    have hdir := FileTree.rename_ne_dir hrename (fun e he => ?_) hd
    · rw [FileTree.entry_self hr'.dir hd] at hdir
      exact absurd hr'.dir hdir
    · rw [hbase'.entry_eq hcs he, hfile']
      exact fun hn => by cases hn
  · obtain ⟨hkeeps, hmoved, hothers⟩ :=
      hbase'.move (hbase₁.of_keeps hadds.keeps) hcs hcs' hfile' hrename
    refine ⟨startsWith_of_names htarget, rfl, hadds.keeps.trans hkeeps, hmoved,
      fun x hx hsome => ?_, rfl, _, _, rfl, rfl, rfl, fun hk => (by cases hk), rfl, ?_⟩
    · obtain ⟨hx', hsame⟩ := hothers x hx hsome
      exact ⟨hx', hsame.trans (hadds.fileAt_eq x)⟩
    · show (((s.revisions.carry source target).entry target).sha256, _) = _
      rw [RevisionMap.entry_carry, if_pos rfl]

/-! ### The ledger is kept -/

variable {s' : WorkspaceFileService}

theorem tracked_of_wrote (h : s.Tracked r) (hw : Wrote s s' r path bytes)
    (hother : ∀ k, k ≠ path → s.revisions.live k ≠ none →
      s'.tree.fileAt (r ++ components k) = s.tree.fileAt (r ++ components k)) : s'.Tracked r := by
  have hlive : ∀ k, s'.revisions.live k = if k = path then
      some ⟨(s.revisions.entry path).revision + 1, Sha256.hex bytes, bytes.length, false⟩
      else s.revisions.live k := by
    intro k
    rw [hw.revisions]
    exact RevisionMap.live_record _ path bytes k
  refine ⟨?_, fun k hk => ?_, ?_, fun k => ?_⟩
  · rw [hw.root]
    exact h.rooted.of_keeps hw.keeps
  · rw [hlive] at hk
    split_ifs at hk with hkp
    · rw [hkp]
      exact hw.spelled
    · exact h.spelled k hk
  · refine h.accurate.put path (Sha256.hex bytes) (fun k => ?_) ?_ (fun k hk hlisted => ?_)
      (fun x hx hsome => ?_)
    · rw [hlive]
      split_ifs
      · rfl
      · rfl
    · rw [hw.file]
      rfl
    · rw [hother k hk (fun hnone => hlisted (by rw [hnone]; rfl))]
    · rw [hw.others x hx (fun hnone => hsome (by rw [hnone]; rfl))]
  · obtain ⟨e, hjournal, hkind, hpath, hsha⟩ := hw.journal
    have hentry : s'.revisions.entry path
        = ⟨(s.revisions.entry path).revision + 1, Sha256.hex bytes, bytes.length, false⟩ :=
      RevisionMap.entry_of_live _ (by rw [hlive, if_pos rfl])
    rw [hjournal, find?_replay_put _ hkind, hpath, hsha, hentry, RevisionMap.listed, hlive, h.journal]
    split_ifs
    · rfl
    · rfl

theorem tracked_of_removed (h : s.Tracked r) (hd : Removed s s' r path)
    (hother : ∀ k, k ≠ path → s.revisions.live k ≠ none →
      s'.tree.fileAt (r ++ components k) = s.tree.fileAt (r ++ components k)) : s'.Tracked r := by
  have hlive : ∀ k, s'.revisions.live k = if k = path then none else s.revisions.live k := by
    intro k
    rw [hd.revisions]
    exact RevisionMap.live_bury _ path k
  refine ⟨?_, fun k hk => ?_, ?_, fun k => ?_⟩
  · rw [hd.root]
    exact h.rooted.of_keeps hd.keeps
  · rw [hlive] at hk
    split_ifs at hk with hkp
    · exact absurd rfl hk
    · exact h.spelled k hk
  · refine h.accurate.remove path (fun k => ?_) (fun k hk hlisted => ?_) (fun x hsome => ?_)
    · rw [hlive]
      split_ifs
      · rfl
      · rfl
    · rw [hother k hk (fun hnone => hlisted (by rw [hnone]; rfl))]
    · obtain ⟨hx, hsame⟩ := hd.others x (fun hnone => hsome (by rw [hnone]; rfl))
      refine ⟨hx, ?_⟩
      rw [hsame]
  · obtain ⟨e, hjournal, hkind, hpath⟩ := hd.journal
    rw [hjournal, find?_replay_deleted _ hkind, hpath, RevisionMap.listed, hlive, h.journal]
    split_ifs
    · rfl
    · rfl

theorem tracked_of_moved {source target : String} (h : s.Tracked r) (hm : Moved s s' r source target bytes)
    (hsource : (s.revisions.entry source).sha256 = Sha256.hex bytes)
    (hother : ∀ k, k ≠ source → k ≠ target → s.revisions.live k ≠ none →
      s'.tree.fileAt (r ++ components k) = s.tree.fileAt (r ++ components k)) : s'.Tracked r := by
  have hlive : ∀ k, s'.revisions.live k = if k = target then
      some { s.revisions.entry source with
        revision := (s.revisions.entry source).revision + 1, deleted := false }
      else if k = source then none else s.revisions.live k := by
    intro k
    rw [hm.revisions]
    exact RevisionMap.live_carry _ source target k
  refine ⟨?_, fun k hk => ?_, ?_, fun k => ?_⟩
  · rw [hm.root]
    exact h.rooted.of_keeps hm.keeps
  · rw [hlive] at hk
    split_ifs at hk with hkt hks
    · rw [hkt]
      exact hm.spelled
    · exact absurd rfl hk
    · exact h.spelled k hk
  · refine h.accurate.move source target (Sha256.hex bytes) (fun k => ?_) ?_
      (fun k hks hkt hlisted => ?_) (fun x hx hsome => ?_)
    · rw [hlive, ← hsource]
      split_ifs
      · rfl
      · rfl
      · rfl
    · rw [hm.file]
      rfl
    · rw [hother k hks hkt (fun hnone => hlisted (by rw [hnone]; rfl))]
    · obtain ⟨hx', hsame⟩ := hm.others x hx (fun hnone => hsome (by rw [hnone]; rfl))
      refine ⟨hx', ?_⟩
      rw [hsame]
  · obtain ⟨e, e', hjournal, hkind, hpath, hkind', hpath', hsha⟩ := hm.journal
    rw [hjournal, find?_replay_put _ hkind', find?_replay_deleted _ hkind, hpath, hpath', hsha,
      RevisionMap.listed, hlive, h.journal]
    split_ifs
    · rfl
    · rfl
    · rfl

end WorkspaceFileService

/-! ### Runs -/

def Call.mutation : Call → Bool
  | .read _ | .adopt _ => false
  | _ => true

namespace WorkspaceFileService

/-- A workspace with nothing in it and nothing recorded of it. -/
structure Fresh (s : WorkspaceFileService) : Prop where
  root : ∃ r, s.tree.place s.root = some r ∧ s.tree.node r = some .dir ∧
    ∀ x, r <+: x → x ≠ r → s.tree.node x = none
  revisions : s.revisions = .empty
  journal : s.journal = []

/-- The journal replays to what the ledger lists, and the ledger has the digests of the
files. -/
structure Reproduces (s : WorkspaceFileService) : Prop where
  journal : ∀ k, (replay s.journal).find? k = s.revisions.listed k
  digest : ∀ k rec, s.revisions.live k = some rec →
    ∃ bytes, s.tree.read (s.root ++ components k) = some bytes ∧ rec.sha256 = Sha256.hex bytes

/-- A transaction has no edits, and what is moved is listed. -/
def Emits (s : WorkspaceFileService) : Call → Prop
  | .applyTransaction edits => edits = []
  | .moveFile source _ => (s.revisions.live source).isSome = true
  | _ => True

instance (s : WorkspaceFileService) : ∀ c, Decidable (s.Emits c)
  | .applyTransaction _ => inferInstanceAs (Decidable (_ = _))
  | .moveFile _ _ => inferInstanceAs (Decidable (_ = _))
  | .create .. | .read _ | .replace .. | .applyPatch .. | .adopt _ | .delete _ => .isTrue trivial

/-- The texts listed in the ledger whose files a call may change are those it is called
with, it says in the journal what it does, and it keeps off the service's own files. -/
def Journaled (s : WorkspaceFileService) (c : Call) : Prop :=
  (∀ k ∈ s.revisions.files.keys, (s.revisions.live k).isSome = true →
    ∀ f ∈ s.location k, Touches s c f → k ∈ c.paths) ∧
  s.Emits c ∧ ∀ path ∈ c.paths, (components path).head? ≠ some ".modbit"

instance (s : WorkspaceFileService) (c : Call) : Decidable (s.Journaled c) :=
  inferInstanceAs (Decidable (_ ∧ _))

variable {s : WorkspaceFileService} {r : FilePath} {path : String}

theorem Tracked.leaves {c : Call} (h : s.Tracked r) (hc : s.Journaled c) {k : String}
    (hk : s.revisions.live k ≠ none) (hpaths : k ∉ c.paths) :
    (s.step c).1.tree.fileAt (r ++ components k) = s.tree.fileAt (r ++ components k) := by
  refine fileAt_step (fun htouch => hpaths ?_)
  obtain ⟨rec, hrec⟩ := Option.ne_none_iff_exists'.mp hk
  have hmem : k ∈ s.revisions.files.keys :=
    OrdMap.mem_keys.mpr ⟨rec, (Option.filter_eq_some_iff.mp hrec).1⟩
  exact hc.1 k hmem (Option.isSome_iff_ne_none.mpr hk) _ (h.location_eq hk) htouch

/-- **A successful call keeps the ledger accurate and the journal complete.** -/
theorem Tracked.step {c : Call} (h : s.Tracked r) (hc : s.Journaled c)
    (hmut : c.mutation = true) (hok : (s.step c).2.ok = true) : (s.step c).1.Tracked r := by
  have hreply : ∀ a : Except WorkspaceError Nat, (Reply.revision a).ok = true → ∃ n, a = .ok n := by
    rintro (e | n) ha
    · cases ha
    · exact ⟨n, rfl⟩
  have hone : ∀ {k p : String}, k ≠ p → k ∉ [p] := fun hne hmem => hne (mem_singleton.mp hmem)
  cases c with
  | create path bytes =>
    obtain ⟨rev, hrev⟩ := hreply _ hok
    exact tracked_of_wrote h (wrote_create h.rooted hrev)
      (fun k hk hlive => h.leaves hc hlive (hone hk))
  | replace path bytes expected =>
    obtain ⟨rev, hrev⟩ := hreply _ hok
    exact tracked_of_wrote h (wrote_replace h.rooted hrev)
      (fun k hk hlive => h.leaves hc hlive (hone hk))
  | applyPatch path expected hunks =>
    obtain ⟨rev, hrev⟩ := hreply _ hok
    obtain ⟨bytes, hwrote⟩ := wrote_applyPatch h.rooted hrev
    exact tracked_of_wrote h hwrote (fun k hk hlive => h.leaves hc hlive (hone hk))
  | applyTransaction edits =>
    obtain rfl : edits = [] := hc.2.1
    exact h
  | delete path =>
    obtain ⟨rev, hrev⟩ := hreply _ hok
    exact tracked_of_removed h (removed_delete h.rooted hrev)
      (fun k hk hlive => h.leaves hc hlive (hone hk))
  | moveFile source target =>
    obtain ⟨rev, hrev⟩ := hreply _ hok
    obtain ⟨rec, hrec⟩ := Option.isSome_iff_exists.mp hc.2.1
    have hdisk := h.accurate.lists source rec.sha256 (by rw [hrec]; rfl)
    obtain ⟨bytes, hbytes, hsha⟩ := Option.map_eq_some_iff.mp hdisk
    refine tracked_of_moved h (moved_moveFile h.rooted hbytes hrev) ?_ (fun k hks hkt hlive => ?_)
    · rw [RevisionMap.entry_of_live _ hrec]
      exact hsha.symm
    · refine h.leaves hc hlive (fun hmem => ?_)
      rcases mem_cons.mp hmem with hk | hk
      · exact hks hk
      · exact hkt (mem_singleton.mp hk)
  | read path => cases hmut
  | adopt path => cases hmut

theorem tracked_run (calls : List Call) : ∀ {s : WorkspaceFileService}, s.Tracked r →
    (∀ c ∈ calls, c.mutation = true) → Admits step (fun s c => (s.step c).2.ok = true) s calls →
    Admits step Journaled s calls → (run step s calls).Tracked r := by
  induction calls with
  | nil => exact fun h _ _ _ => h
  | cons c calls ih =>
    intro s h hmut hok hc
    refine ih (h.step hc.1 (hmut c mem_cons_self) hok.1) (fun c' hc' => ?_) hok.2 hc.2
    exact hmut c' (mem_cons_of_mem c hc')

theorem tracked_of_fresh (h : s.Fresh) : ∃ r, s.Tracked r := by
  obtain ⟨⟨r, hplace, hdir, hvacant⟩, hrevisions, hjournal⟩ := h
  have hlive : ∀ k, s.revisions.live k = none := by
    intro k
    rw [hrevisions]
    rfl
  have hfiles : ∀ x, r <+: x → s.tree.fileAt x = none := by
    intro x hx
    rw [FileTree.fileAt]
    by_cases hxr : x = r
    · rw [hxr, hdir]
    · rw [hvacant x hx hxr]
  refine ⟨r, ⟨hplace, hdir, fun x hx target hl => ?_⟩, fun k hk => absurd (hlive k) hk,
    ⟨fun k d hk => ?_, fun x hx hsome => ?_⟩, fun k => ?_⟩
  · by_cases hxr : x = r
    · rw [hxr, hdir] at hl
      cases hl
    · rw [hvacant x hx hxr] at hl
      cases hl
  · rw [hlive] at hk
    cases hk
  · rw [hfiles x hx] at hsome
    exact absurd rfl hsome
  · rw [hjournal, RevisionMap.listed, hlive]
    rfl

theorem Tracked.reproduces (h : s.Tracked r) : s.Reproduces := by
  refine ⟨h.journal, fun k rec hrec => ?_⟩
  have hdisk := h.accurate.lists k rec.sha256 (by rw [hrec]; rfl)
  obtain ⟨bytes, hbytes, hsha⟩ := Option.map_eq_some_iff.mp hdisk
  have hnode := FileTree.node_of_fileAt hbytes
  have hsome : s.tree.node (r ++ components k) ≠ none := by
    rw [hnode]
    exact Option.some_ne_none _
  refine ⟨bytes, ?_, hsha.symm⟩
  rw [FileTree.read,
    FileTree.canonicalize_eq_some.mpr ⟨h.rooted.place_of_node _ hsome, hsome⟩, Option.bind_some,
    hnode]

/-- **The journal tells what the ledger has and the disk holds.**  Over a fresh workspace,
after successful calls that are all journaled. -/
theorem reproduces_of_journaled (s : WorkspaceFileService) (h : s.Fresh) (calls : List Call)
    (hmut : ∀ c ∈ calls, c.mutation = true)
    (hok : Admits step (fun s c => (s.step c).2.ok = true) s calls)
    (hcalls : Admits step Journaled s calls) : (run step s calls).Reproduces := by
  obtain ⟨r, hr⟩ := tracked_of_fresh h
  exact (tracked_run calls hr hmut hok hcalls).reproduces

theorem fresh_vacant : vacant.Fresh := by
  refine ⟨⟨["ws"], by decide +kernel, by decide +kernel, fun x hx hne => ?_⟩, rfl, rfl⟩
  by_contra hsome
  obtain ⟨n, hn⟩ := Option.ne_none_iff_exists'.mp hsome
  have hkeys : vacant.tree.nodes.keys = [[], ["ws"]] := by decide +kernel
  have hmem : x ∈ vacant.tree.nodes.keys := OrdMap.mem_keys.mpr ⟨n, hn⟩
  rw [hkeys] at hmem
  rcases mem_cons.mp hmem with rfl | hmem
  · exact absurd hx (by decide)
  · exact hne (mem_singleton.mp hmem)

/-- Two files, one replaced, moved onto the other and deleted. -/
def shuffled : List Call :=
  [.create "a.txt" [97], .create "d/b" [98], .replace "a.txt" [99] 1, .moveFile "a.txt" "d/b",
    .create "./a.txt" [100], .delete "d/b"]

theorem reproduces_of_journaled_shuffled : (run step vacant shuffled).Reproduces :=
  reproduces_of_journaled vacant fresh_vacant shuffled (by decide) (by decide +kernel)
    (by decide +kernel)

/-- A transaction moves the ledger to revision 2 and the journal stays at revision 1. -/
theorem transaction_silent :
    let calls := [Call.create "a" [97, 10], .applyTransaction [relabel "a" 'a' 'b']]
    vacant.Fresh ∧ Admits step (fun s c => (s.step c).2.ok = true) vacant calls ∧
    ¬ (run step vacant calls).Reproduces := by
  refine ⟨fresh_vacant, by decide +kernel, fun h => ?_⟩
  have hrev := congrArg (Option.map Prod.snd) (h.journal "a")
  revert hrev
  decide +kernel

end WorkspaceFileService

end Workspace

end Modbit
