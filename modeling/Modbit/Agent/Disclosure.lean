import Modbit.Agent.WorktreeTools
import Modbit.Workspace.Resolution

/-!
# What the reading tools disclose

An answer is `Contained` if what it tells, content, names or positions, is of files under the
canonical worktree.  The file service resolves every path it is given; `search.grep` resolves
nothing and goes where its path and the links lead.

`contained_iff`: a call answers within the worktree and comes to an end exactly if it is not a
search, or if every file the search finds its pattern in lies under the worktree.
`walkFiles_isSome` is the end of every walk: each link that the walk goes through takes one of the
links that resolving the path may use, and between two links it only gets deeper.
-/

namespace Modbit

open Lib Workspace List

namespace WorktreeTools

section Walk

variable {σ : Type} {t : FileTree} {o : Listing} {f : σ → List LinkPart → σ}

structure Enters (t : FileTree) (dir : List LinkPart) (x : String) : Prop where
  sub : t.metadata (dir ++ [.name x]) = some .dir
  searched : ¬ skipped x

/-- The files that a walk from a directory comes to. -/
inductive Reaches (t : FileTree) : List LinkPart → List LinkPart → Prop
  | file {dir : List LinkPart} {d : FilePath} {x : String} {bytes : List UInt8} :
      t.locate dir = some d → t.node d = some .dir → x ∈ t.children d →
      t.metadata (dir ++ [.name x]) = some (.file bytes) → Reaches t dir (dir ++ [.name x])
  | dir {dir path : List LinkPart} {d : FilePath} {x : String} :
      t.locate dir = some d → t.node d = some .dir → x ∈ t.children d → Enters t dir x →
      Reaches t (dir ++ [.name x]) path → Reaches t dir path

/-! ### The loop over the entries -/

section Entries

variable {walk : List LinkPart → σ → Option σ} {dir : List LinkPart} {x : String}
  {names : List String} {acc acc' : σ}

theorem walkEntries_enter (h : Enters t dir x) :
    walkEntries t f walk dir (x :: names) acc
      = (walk (dir ++ [.name x]) acc).bind (walkEntries t f walk dir names) := by
  rw [walkEntries, h.sub]
  exact if_neg h.searched

theorem walkEntries_file {bytes : List UInt8}
    (h : t.metadata (dir ++ [.name x]) = some (.file bytes)) :
    walkEntries t f walk dir (x :: names) acc
      = walkEntries t f walk dir names (f acc (dir ++ [.name x])) := by
  rw [walkEntries, h]

theorem entry_cases (t : FileTree) (dir : List LinkPart) (x : String) :
    Enters t dir x ∨ (∃ bytes, t.metadata (dir ++ [.name x]) = some (.file bytes)) ∨
      ∀ (f : σ → List LinkPart → σ) (walk : List LinkPart → σ → Option σ) (names : List String)
        (acc : σ), walkEntries t f walk dir (x :: names) acc = walkEntries t f walk dir names acc := by
  cases hmeta : t.metadata (dir ++ [.name x]) with
  | none =>
    refine Or.inr (Or.inr (fun f walk names acc => ?_))
    rw [walkEntries, hmeta]
  | some n =>
    cases n with
    | file bytes => exact Or.inr (Or.inl ⟨bytes, rfl⟩)
    | dir =>
      by_cases hskip : skipped x
      · refine Or.inr (Or.inr (fun f walk names acc => ?_))
        rw [walkEntries, hmeta]
        exact if_pos hskip
      · exact Or.inl ⟨hmeta, hskip⟩
    | link target =>
      refine Or.inr (Or.inr (fun f walk names acc => ?_))
      rw [walkEntries, hmeta]

theorem walkEntries_invariant {P : σ → Prop}
    (hwalk : ∀ x ∈ names, Enters t dir x → ∀ acc acc', walk (dir ++ [.name x]) acc = some acc' →
      P acc → P acc')
    (hfile : ∀ x ∈ names, ∀ bytes, t.metadata (dir ++ [.name x]) = some (.file bytes) →
      ∀ acc, P acc → P (f acc (dir ++ [.name x])))
    (h : walkEntries t f walk dir names acc = some acc') (hP : P acc) : P acc' := by
  induction names generalizing acc with
  | nil =>
    rw [walkEntries] at h
    exact Option.some.inj h ▸ hP
  | cons x names ih =>
    have ih' : ∀ {acc}, walkEntries t f walk dir names acc = some acc' → P acc → P acc' :=
      ih (fun y hy => hwalk y (mem_cons_of_mem _ hy))
        (fun y hy => hfile y (mem_cons_of_mem _ hy))
    rcases entry_cases (σ := σ) t dir x with henter | ⟨bytes, hbytes⟩ | hpass
    · rw [walkEntries_enter henter] at h
      obtain ⟨mid, hmid, hrest⟩ := Option.bind_eq_some_iff.mp h
      exact ih' hrest (hwalk x mem_cons_self henter acc mid hmid hP)
    · rw [walkEntries_file hbytes] at h
      exact ih' h (hfile x mem_cons_self bytes hbytes acc hP)
    · rw [hpass] at h
      exact ih' h hP

theorem walkEntries_isSome
    (hwalk : ∀ x ∈ names, Enters t dir x → ∀ acc, (walk (dir ++ [.name x]) acc).isSome) :
    (walkEntries t f walk dir names acc).isSome := by
  induction names generalizing acc with
  | nil => rfl
  | cons x names ih =>
    have ih' : ∀ {acc}, (walkEntries t f walk dir names acc).isSome :=
      ih (fun y hy => hwalk y (mem_cons_of_mem _ hy))
    rcases entry_cases (σ := σ) t dir x with henter | ⟨bytes, hbytes⟩ | hpass
    · rw [walkEntries_enter henter]
      obtain ⟨mid, hmid⟩ := Option.isSome_iff_exists.mp (hwalk x mem_cons_self henter acc)
      rw [hmid, Option.bind_some]
      exact ih'
    · rw [walkEntries_file hbytes]
      exact ih'
    · rw [hpass]
      exact ih'

theorem walkEntries_mono {walk' : List LinkPart → σ → Option σ}
    (hwalk : ∀ dir acc acc', walk dir acc = some acc' → walk' dir acc = some acc')
    (h : walkEntries t f walk dir names acc = some acc') :
    walkEntries t f walk' dir names acc = some acc' := by
  induction names generalizing acc with
  | nil => exact h
  | cons x names ih =>
    rcases entry_cases (σ := σ) t dir x with henter | ⟨bytes, hbytes⟩ | hpass
    · rw [walkEntries_enter henter] at h ⊢
      obtain ⟨mid, hmid, hrest⟩ := Option.bind_eq_some_iff.mp h
      exact Option.bind_eq_some_iff.mpr ⟨mid, hwalk _ _ _ hmid, ih hrest⟩
    · rw [walkEntries_file hbytes] at h ⊢
      exact ih h
    · rw [hpass] at h ⊢
      exact ih h

end Entries

/-! ### The walk -/

variable {fuel : Nat} {dir : List LinkPart} {acc : σ}

theorem walkFiles_eq {d : FilePath} (hd : t.locate dir = some d) (hdir : t.node d = some .dir) :
    walkFiles t o f (fuel + 1) dir acc
      = walkEntries t f (walkFiles t o f fuel) dir (o.order dir (t.children d)) acc := by
  rw [walkFiles, hd]
  exact if_pos hdir

theorem walkFiles_cases (dir : List LinkPart) :
    (∃ d, t.locate dir = some d ∧ t.node d = some .dir) ∨
      ∀ (fuel : Nat) (acc : σ), walkFiles t o f (fuel + 1) dir acc = some acc := by
  cases hd : t.locate dir with
  | none =>
    refine Or.inr (fun fuel acc => ?_)
    rw [walkFiles, hd]
  | some d =>
    by_cases hdir : t.node d = some .dir
    · exact Or.inl ⟨d, rfl, hdir⟩
    · refine Or.inr (fun fuel acc => ?_)
      rw [walkFiles, hd]
      exact if_neg hdir

variable {acc' : σ}

/-- **What each file the walk comes to keeps, the walk keeps.** -/
theorem walkFiles_invariant {P : σ → Prop}
    (hstep : ∀ path, Reaches t dir path → ∀ acc, P acc → P (f acc path))
    (h : walkFiles t o f fuel dir acc = some acc') (hP : P acc) : P acc' := by
  induction fuel generalizing dir acc acc' with
  | zero => cases h
  | succ fuel ih =>
    rcases walkFiles_cases (σ := σ) (o := o) (f := f) dir with ⟨d, hd, hdir⟩ | hnone
    · rw [walkFiles_eq hd hdir] at h
      refine walkEntries_invariant (fun x hx henter acc acc' hwalk hP => ?_)
        (fun x hx bytes hbytes acc hP => ?_) h hP
      · exact ih (fun path hpath => hstep path (.dir hd hdir (o.mem_order.mp hx) henter hpath))
          hwalk hP
      · exact hstep _ (.file hd hdir (o.mem_order.mp hx) hbytes) acc hP
    · rw [hnone] at h
      exact Option.some.inj h ▸ hP

theorem walkFiles_mono {n m : Nat} (hle : n ≤ m)
    (h : walkFiles t o f n dir acc = some acc') : walkFiles t o f m dir acc = some acc' := by
  induction n generalizing m dir acc acc' with
  | zero => cases h
  | succ n ih =>
    obtain ⟨m, rfl⟩ : ∃ m', m = m' + 1 := ⟨m - 1, by omega⟩
    rcases walkFiles_cases (σ := σ) (o := o) (f := f) dir with ⟨d, hd, hdir⟩ | hnone
    · rw [walkFiles_eq hd hdir] at h ⊢
      exact walkEntries_mono (fun dir acc acc' hwalk => ih (by omega) hwalk) h
    · rw [hnone] at h ⊢
      exact h

theorem walkFiles_enough (dir : List LinkPart) :
    ∀ acc : σ, (walkFiles t o f (FileTree.enough t) dir acc).isSome := by
  refine FileTree.walk_ends (fun fuel dir => ∀ acc : σ, (walkFiles t o f fuel dir acc).isSome)
    (fun fuel dir ih acc => ?_) dir
  rcases walkFiles_cases (σ := σ) (o := o) (f := f) dir with ⟨d, hd, hdir⟩ | hnone
  · rw [walkFiles_eq hd hdir]
    exact walkEntries_isSome
      (fun x _ henter acc => ih x (FileTree.metadata_eq_some.mpr ⟨d, hd, hdir⟩) henter.sub acc)
  · rw [hnone]
    rfl

theorem Reaches.extends {dir path : List LinkPart} (h : Reaches t dir path) :
    ∃ x rest, path = dir ++ .name x :: rest := by
  induction h with
  | @file dir d x bytes hd hdir hx hbytes => exact ⟨x, [], rfl⟩
  | @dir dir path d x hd hdir hx henter hreach ih =>
    obtain ⟨y, rest, rfl⟩ := ih
    exact ⟨x, .name y :: rest, by rw [append_assoc, singleton_append]⟩

/-- **A walk may come to any of its files first.** -/
theorem walkFiles_first {P : σ → Prop} {dir path : List LinkPart}
    (hreach : Reaches t dir path) (hfirst : P (f acc path))
    (hstep : ∀ acc path, P acc → P (f acc path))
    (h : walkFiles t (.along path) f fuel dir acc = some acc') : P acc' := by
  induction hreach generalizing fuel acc' with
  | @file dir d x bytes hd hdir hx hbytes =>
    cases fuel with
    | zero => cases h
    | succ fuel =>
      rw [walkFiles_eq hd hdir, Listing.order_along hx, walkEntries_file hbytes] at h
      exact walkEntries_invariant
        (fun y _ _ acc acc' hwalk => walkFiles_invariant (fun path _ acc => hstep acc path) hwalk)
        (fun y _ bytes _ acc => hstep acc _) h hfirst
  | @dir dir path d x hd hdir hx henter hreach ih =>
    cases fuel with
    | zero => cases h
    | succ fuel =>
      obtain ⟨y, rest, hpath⟩ := hreach.extends
      have hpath' : path = dir ++ .name x :: (.name y :: rest) := by
        rw [hpath, append_assoc, singleton_append]
      have horder : (Listing.along path).order dir (t.children d)
          = x :: (t.children d).erase x := by
        rw [hpath']
        exact Listing.order_along hx
      rw [walkFiles_eq hd hdir, horder, walkEntries_enter henter] at h
      obtain ⟨mid, hmid, hrest⟩ := Option.bind_eq_some_iff.mp h
      exact walkEntries_invariant
        (fun y _ _ acc acc' hwalk => walkFiles_invariant (fun path _ acc => hstep acc path) hwalk)
        (fun y _ bytes _ acc => hstep acc _) hrest (ih hfirst hmid)

end Walk

/-! ### Answers -/

/-- The path of a match, from the root of the file system. -/
def Position.way (worktree : FilePath) (p : Position) : List LinkPart :=
  if p.absolute then p.parts else worktree.map .name ++ p.parts

theorem way_position (worktree : FilePath) (path : List LinkPart) (line : Nat) :
    (position worktree path line).way worktree = path := by
  rw [position]
  split_ifs with hpre
  · obtain ⟨rest, rfl⟩ := hpre
    have hdrop : (worktree.map LinkPart.name ++ rest).drop worktree.length = rest :=
      drop_left' (length_map _)
    show worktree.map LinkPart.name ++ (worktree.map LinkPart.name ++ rest).drop worktree.length = _
    rw [hdrop]
  · rfl

/-- A location under the canonical worktree. -/
def Under (s : Tools) (f : FilePath) : Prop :=
  ∃ root, s.ws.tree.canonicalize s.ws.root = some root ∧ root <+: f

/-- The content of the file that a path argument leads to, and that lies under the worktree. -/
def ReadFrom (s : Tools) (args : Json) (bytes : List UInt8) : Prop :=
  ∃ path f, strArg args "path" = some path ∧
    s.ws.tree.canonicalize (s.ws.root ++ WorkspaceFileService.components path) = some f ∧
    s.ws.tree.node f = some (.file bytes) ∧ Under s f

/-- What an answer tells is of files under the worktree. -/
def Confined (s : Tools) (args : Json) : Answer → Prop
  | .content text _ => ∃ bytes, ReadFrom s args bytes ∧ text = Utf8.lossy bytes
  | .media text _ envelope => ∃ bytes, ReadFrom s args bytes ∧ text = Tools.mediaText envelope ∧
      envelope.sha256 = Sha256.hex bytes ∧ envelope.byteLength = bytes.length
  | .entries names => ∃ d, s.ws.tree.canonicalize (s.ws.root ++
      WorkspaceFileService.components ((strArg args "dir").getD "")) = some d ∧ Under s d ∧
      ∀ x ∈ names, s.ws.tree.node (d ++ [x]) ≠ none
  | .gated path => strArg args "path" = some path
  | .refused occurrences => ∃ bytes old, ReadFrom s args bytes ∧
      strArg args "old_text" = some old ∧
      occurrences = Tools.countFrom old.toList 0 (Utf8.lossy bytes)
  | .proposed _ previewHead => ∃ bytes old new, ReadFrom s args bytes ∧
      strArg args "old_text" = some old ∧ strArg args "new_text" = some new ∧
      previewHead = Tools.tail (Tools.replaceFirst old.toList new.toList (Utf8.lossy bytes)) 600
  | .found positions _ => ∀ p ∈ positions, ∃ f bytes,
      s.ws.tree.locate (p.way s.ws.root) = some f ∧ s.ws.tree.node f = some (.file bytes) ∧
      Under s f

variable {s : Tools} {args : Json}

/-! ### The file service -/

theorem under_of_names {path : String} {f q : FilePath} (h : s.ws.Names path f)
    (hq : s.ws.tree.canonicalize f = some q) :
    f = q ∧ s.ws.tree.canonicalize (s.ws.root ++ WorkspaceFileService.components path) = some f ∧
      Under s f := by
  obtain ⟨rfl, hc⟩ := WorkspaceFileService.canonicalize_of_names h hq
  refine ⟨rfl, hc, ?_⟩
  rcases WorkspaceFileService.resolve_eq_ok h with ⟨-, hcont⟩ | ⟨hnone, -⟩
  · exact WorkspaceFileService.contained_eq_ok.mp hcont
  · rw [hc] at hnone
    cases hnone

theorem adopt_frame (ws : WorkspaceFileService) (path : String) :
    (ws.adopt path).1.tree = ws.tree ∧ (ws.adopt path).1.root = ws.root := by
  rw [WorkspaceFileService.adopt, WorkspaceFileService.resolving]
  cases ws.resolve path with
  | error e => exact ⟨rfl, rfl⟩
  | ok resolved =>
    dsimp only
    cases ws.tree.read resolved with
    | none => exact ⟨rfl, rfl⟩
    | some bytes =>
      cases ws.fileRevision path with
      | none => exact ⟨rfl, rfl⟩
      | some rev => exact ⟨rfl, rfl⟩

theorem readFrom_of_read {path : String} {bytes : List UInt8} {rev : Nat}
    (hpath : strArg args "path" = some path)
    (h : (s.ws.adopt path).1.read path = .ok (bytes, rev)) : ReadFrom s args bytes := by
  obtain ⟨f, hnames, hnode, -⟩ := WorkspaceFileService.read_eq_ok h
  obtain ⟨htree, hroot⟩ := adopt_frame s.ws path
  have hnames' : s.ws.Names path f := by
    have hsame : (s.ws.adopt path).1.resolve path = s.ws.resolve path := by
      simp only [WorkspaceFileService.resolve, WorkspaceFileService.contained, htree, hroot]
    exact hsame.symm.trans hnames
  rw [htree] at hnode
  have hself : s.ws.tree.canonicalize f = some f := by
    refine FileTree.canonicalize_eq_some.mpr ⟨FileTree.place_of_node hnode ?_, ?_⟩
    · exact fun target hl => (by cases hl)
    · rw [hnode]
      exact Option.some_ne_none _
  obtain ⟨-, hc, hunder⟩ := under_of_names hnames' hself
  exact ⟨path, f, hpath, hc, hnode, hunder⟩

theorem ingest_eq_ok {store : FilePath} {budget : Nat} {mediaId source : String}
    {bytes : List UInt8} {t t' : FileTree} {envelope : MediaEnvelope}
    (h : ingest store budget mediaId source bytes t = (t', .ok envelope)) :
    envelope.sha256 = Sha256.hex bytes ∧ envelope.byteLength = bytes.length := by
  have hput : ∀ {t' : FileTree} {rel sha : String}, put store bytes t = (t', .ok (rel, sha)) →
      sha = Sha256.hex bytes := by
    intro t' rel sha h
    rw [put] at h
    split_ifs at h
    · exact (Prod.mk.inj (Except.ok.inj (Prod.mk.inj h).2)).2.symm
    · split at h
      · cases (Prod.mk.inj h).2
      · split at h
        · cases (Prod.mk.inj h).2
        · exact (Prod.mk.inj (Except.ok.inj (Prod.mk.inj h).2)).2.symm
  rw [ingest] at h
  split_ifs at h
  · cases (Prod.mk.inj h).2
  · cases (Prod.mk.inj h).2
  split at h
  · cases (Prod.mk.inj h).2
  · split at h
    · cases (Prod.mk.inj h).2
    · next hstored =>
      rw [← Except.ok.inj (Prod.mk.inj h).2]
      exact ⟨hput hstored, rfl⟩

variable {s' : Tools} {a : Answer}

theorem confined_fsRead (h : s.fsRead args = (s', .ok a)) : Confined s args a := by
  rw [Tools.fsRead] at h
  split at h
  · cases (Prod.mk.inj h).2
  · next path hpath =>
    dsimp only at h
    split at h
    · cases (Prod.mk.inj h).2
    · next bytes rev hread =>
      have hfrom := readFrom_of_read hpath hread
      rw [Tools.view] at h
      split_ifs at h
      · split at h
        · cases (Prod.mk.inj h).2
        · next envelope hingest =>
          rw [← Except.ok.inj (Prod.mk.inj h).2]
          exact ⟨bytes, hfrom, rfl, ingest_eq_ok hingest⟩
      · rw [← Except.ok.inj (Prod.mk.inj h).2]
        exact ⟨bytes, hfrom, rfl⟩

theorem confined_fsList (h : s.fsList args = (s', .ok a)) : Confined s args a := by
  rw [Tools.fsList] at h
  split at h
  · cases (Prod.mk.inj h).2
  · next entries hlist =>
    rw [← Except.ok.inj (Prod.mk.inj h).2]
    rw [Tools.list] at hlist
    split at hlist
    · cases hlist
    · next resolved hres =>
      split at hlist
      · cases hlist
      · next d hd =>
        split_ifs at hlist with hdir
        obtain ⟨rfl, hc, hunder⟩ := under_of_names hres hd
        refine ⟨resolved, hc, hunder, fun x hx => ?_⟩
        rw [← Except.ok.inj hlist, mem_insertionSort] at hx
        exact FileTree.mem_children.mp (mem_filter.mp hx).1

theorem confined_changePropose (h : s.changePropose args = (s', .ok a)) : Confined s args a := by
  rw [Tools.changePropose] at h
  split at h
  · cases (Prod.mk.inj h).2
  next path hpath =>
  split at h
  · cases (Prod.mk.inj h).2
  next old hold =>
  split at h
  · cases (Prod.mk.inj h).2
  next new hnew =>
  split_ifs at h
  · rw [← Except.ok.inj (Prod.mk.inj h).2]
    exact hpath
  · dsimp only at h
    split at h
    · cases (Prod.mk.inj h).2
    · next bytes rev hread =>
      have hfrom := readFrom_of_read hpath hread
      rw [← Except.ok.inj (Prod.mk.inj h).2, Tools.preview]
      split_ifs
      · exact ⟨bytes, old, hfrom, hold, rfl⟩
      · exact ⟨bytes, old, new, hfrom, hold, hnew, rfl⟩

/-! ### The search -/

variable {worktree : FilePath} {pattern : List Char} {path : List LinkPart} {idx : Nat}
  {lines : List (List Char)} {found : List Position} {p : Position}

theorem mem_scanLines (h : p ∈ scanLines worktree pattern path idx lines found) :
    p ∈ found ∨ (p.way worktree = path ∧ ∃ line ∈ lines, pattern <:+: line) := by
  induction lines generalizing idx found with
  | nil => exact Or.inl h
  | cons line lines ih =>
    have hrest : ∀ {idx : Nat} {found : List Position},
        p ∈ scanLines worktree pattern path idx lines found →
        p ∈ found ∨ (p.way worktree = path ∧ ∃ l ∈ line :: lines, pattern <:+: l) := by
      intro idx found h
      rcases ih h with h | ⟨hway, l, hl, hmatch⟩
      · exact Or.inl h
      · exact Or.inr ⟨hway, l, mem_cons_of_mem _ hl, hmatch⟩
    have hnew : pattern <:+: line → p ∈ found ++ [position worktree path (idx + 1)] →
        p ∈ found ∨ (p.way worktree = path ∧ ∃ l ∈ line :: lines, pattern <:+: l) := by
      intro hline h
      rcases mem_append.mp h with h | h
      · exact Or.inl h
      · rw [mem_singleton.mp h]
        exact Or.inr ⟨way_position _ _ _, line, mem_cons_self, hline⟩
    rw [scanLines] at h
    dsimp only at h
    split_ifs at h with hline
    · exact hnew hline h
    · rcases hrest h with h | h
      · exact hnew hline h
      · exact Or.inr h
    · exact hrest h

theorem scanLines_grows (h : p ∈ found) : p ∈ scanLines worktree pattern path idx lines found := by
  induction lines generalizing idx found with
  | nil => exact h
  | cons line lines ih =>
    rw [scanLines]
    dsimp only
    split_ifs
    · exact mem_append_left _ h
    · exact ih (mem_append_left _ h)
    · exact ih h

theorem exists_scanLines {pattern line : List Char} (hline : line ∈ lines)
    (hmatch : pattern <:+: line) :
    ∃ p ∈ scanLines worktree pattern path idx lines found, p.way worktree = path := by
  induction lines generalizing idx found with
  | nil => cases hline
  | cons l lines ih =>
    rw [scanLines]
    dsimp only
    split_ifs with hl
    · exact ⟨_, mem_append_right _ mem_cons_self, way_position _ _ _⟩
    · exact ⟨_, scanLines_grows (mem_append_right _ mem_cons_self), way_position _ _ _⟩
    · rcases mem_cons.mp hline with rfl | hline
      · exact absurd hmatch hl
      · exact ih hline

/-- A file that a search looks into and finds its pattern in. -/
structure Hit (t : FileTree) (pattern : List Char) (path : List LinkPart) (f : FilePath) : Prop where
  leads : t.locate path = some f
  matched : ∃ bytes, t.node f = some (.file bytes) ∧ bytes.length ≤ maxSearchedBytes ∧
    ∃ line ∈ Text.lines (Utf8.lossy bytes), pattern <:+: line

variable {t : FileTree} {worktree : FilePath} {pattern : List Char} {acc : Search}
  {path : List LinkPart}

theorem mem_visit (h : p ∈ (visit t worktree pattern acc path).found) :
    p ∈ acc.found ∨ (p.way worktree = path ∧ ∃ f, Hit t pattern path f) := by
  rw [visit] at h
  split_ifs at h
  · exact Or.inl h
  · split at h
    · next bytes hmeta =>
      split_ifs at h with hlong
      · exact Or.inl h
      · rcases mem_scanLines h with h | ⟨hway, hline⟩
        · exact Or.inl h
        · obtain ⟨f, hf, hnode⟩ := FileTree.metadata_eq_some.mp hmeta
          exact Or.inr ⟨hway, f, hf, bytes, hnode, Nat.not_lt.mp hlong, hline⟩
    · exact Or.inl h

theorem visit_grows (h : p ∈ acc.found) : p ∈ (visit t worktree pattern acc path).found := by
  rw [visit]
  split_ifs
  · exact h
  · split
    · split_ifs
      · exact h
      · exact scanLines_grows h
    · exact h

theorem visit_first {f : FilePath} (h : Hit t pattern path f) :
    ∃ p ∈ (visit t worktree pattern ⟨[], 0⟩ path).found, p.way worktree = path := by
  obtain ⟨bytes, hnode, hshort, line, hline, hmatch⟩ := h.matched
  have hmeta : t.metadata path = some (.file bytes) :=
    FileTree.metadata_eq_some.mpr ⟨f, h.leads, hnode⟩
  have hopen : ¬ (maxVisited < 0 + 1 ∨ maxMatches ≤ ([] : List Position).length) := by decide
  rw [visit]
  rw [if_neg hopen, hmeta]
  dsimp only
  rw [if_neg (Nat.not_lt.mpr hshort)]
  exact exists_scanLines hline hmatch

/-! ### All calls -/

/-- Every answer of a call is confined, and there is one: with the names of directories in
any order, the walk comes to an end. -/
def Meets (s : Tools) (tool : ReadTool) (args : Json) : Prop :=
  ∀ o : Listing,
    (∀ fuel s' a, s.call o fuel tool args = some (s', .ok a) → Confined s args a) ∧
    ∃ answer fuel, ∀ more, fuel ≤ more → s.call o more tool args = some answer

/-- The call is no search, or what the search can find lies under the worktree. -/
def StaysIn (s : Tools) (tool : ReadTool) (args : Json) : Prop :=
  tool = .searchGrep → ∀ pattern path f, strArg args "pattern" = some pattern →
    Reaches s.ws.tree (searchBase s.ws.root args) path →
    Hit s.ws.tree pattern.toList path f → Under s f

theorem call_ends (s : Tools) (o : Listing) (tool : ReadTool) (args : Json) :
    ∃ answer fuel, ∀ more, fuel ≤ more → s.call o more tool args = some answer := by
  cases tool with
  | fsRead => exact ⟨s.fsRead args, 0, fun _ _ => rfl⟩
  | fsList => exact ⟨s.fsList args, 0, fun _ _ => rfl⟩
  | changePropose => exact ⟨s.changePropose args, 0, fun _ _ => rfl⟩
  | searchGrep =>
    cases hpattern : strArg args "pattern" with
    | none =>
      refine ⟨(s, .error (.missing "pattern")), 0, fun more _ => ?_⟩
      show s.searchGrep o more args = _
      rw [Tools.searchGrep, hpattern]
    | some pattern =>
      obtain ⟨acc, hacc⟩ := Option.isSome_iff_exists.mp (walkFiles_enough (t := s.ws.tree) (o := o)
        (f := visit s.ws.tree s.ws.root pattern.toList) (searchBase s.ws.root args) ⟨[], 0⟩)
      refine ⟨(s.recordEvidence (acc.found.map Position.display), .ok (.found acc.found acc.visited)),
        FileTree.enough s.ws.tree, fun more hmore => ?_⟩
      show s.searchGrep o more args = _
      rw [Tools.searchGrep, hpattern]
      dsimp only
      rw [walkFiles_mono hmore hacc]
      rfl

theorem searchGrep_eq_ok {o : Listing} {fuel : Nat}
    (h : s.searchGrep o fuel args = some (s', .ok a)) :
    ∃ pattern acc, strArg args "pattern" = some pattern ∧
      walkFiles s.ws.tree o (visit s.ws.tree s.ws.root pattern.toList) fuel
        (searchBase s.ws.root args) ⟨[], 0⟩ = some acc ∧ a = .found acc.found acc.visited := by
  rw [Tools.searchGrep] at h
  split at h
  · cases (Prod.mk.inj (Option.some.inj h)).2
  · next pattern hpattern =>
    obtain ⟨acc, hacc, heq⟩ := Option.map_eq_some_iff.mp h
    exact ⟨pattern, acc, hpattern, hacc, (Except.ok.inj (Prod.mk.inj heq).2).symm⟩

/-- **The reading tools tell of nothing outside the worktree, and come to an end, exactly if
the call is no search or the search finds nothing outside.** -/
theorem confined_iff (s : Tools) (tool : ReadTool) (args : Json) :
    Meets s tool args ↔ StaysIn s tool args := by
  constructor
  · intro hmeets htool pattern path f hpattern hreach hit
    subst htool
    obtain ⟨hconf, answer, fuel, hfuel⟩ := hmeets (.along path)
    have hcall : s.searchGrep (.along path) fuel args = some answer := hfuel fuel (Nat.le_refl _)
    rw [Tools.searchGrep, hpattern] at hcall
    obtain ⟨acc, hacc, rfl⟩ := Option.map_eq_some_iff.mp hcall
    -- the walk may come to the file first, and then its position is in the answer
    obtain ⟨p, hp, hway⟩ := walkFiles_first
      (P := fun acc => ∃ p ∈ acc.found, p.way s.ws.root = path) hreach (visit_first hit)
      (fun acc path ⟨p, hp, hway⟩ => ⟨p, visit_grows hp, hway⟩) hacc
    have hfound := hconf fuel _ _ (hfuel fuel (Nat.le_refl _))
    obtain ⟨g, bytes, hg, -, hunder⟩ := hfound p hp
    rw [hway, hit.leads] at hg
    exact Option.some.inj hg ▸ hunder
  · intro hstays o
    refine ⟨fun fuel s' a h => ?_, call_ends s o tool args⟩
    cases tool with
    | fsRead => exact confined_fsRead (Option.some.inj h)
    | fsList => exact confined_fsList (Option.some.inj h)
    | changePropose => exact confined_changePropose (Option.some.inj h)
    | searchGrep =>
      obtain ⟨pattern, acc, hpattern, hacc, rfl⟩ := searchGrep_eq_ok h
      refine walkFiles_invariant (P := fun acc => Confined s args (.found acc.found 0))
        (fun path hreach acc hP p hp => ?_) hacc (fun p hp => by cases hp)
      rcases mem_visit hp with hp | ⟨hway, f, hit⟩
      · exact hP p hp
      · obtain ⟨bytes, hnode, -⟩ := hit.matched
        exact ⟨f, bytes, hway ▸ hit.leads, hnode, hstays rfl pattern path f hpattern hreach hit⟩

/-- A worktree at `/ws`, and a file `/etc/passwd` that says `root`. -/
def besideEtc : Tools where
  ws := {
    root := ["ws"]
    tree := (((FileTree.empty.createDirAll ["ws"]).bind (·.createDirAll ["etc"])).bind
      (·.write ["etc", "passwd"] [0x72, 0x6f, 0x6f, 0x74])).getD .empty
    revisions := .empty
    journal := [] }
  media := false
  evidence := none

/-- The search of an absolute path finds what is there. -/
theorem not_confined_absolute :
    let args := Json.obj [("pattern", .str "oo"), ("path", .str "/etc")]
    (besideEtc.call .plain 3 .searchGrep args).map Prod.snd
        = some (.ok (.found [⟨true, [.name "etc", .name "passwd"], 1⟩] 1)) ∧
      ¬ Meets besideEtc .searchGrep args := by
  intro args
  have hcall : (besideEtc.call .plain 3 .searchGrep args).map Prod.snd
      = some (.ok (.found [⟨true, [.name "etc", .name "passwd"], 1⟩] 1)) := by decide +kernel
  refine ⟨hcall, fun hmeets => ?_⟩
  obtain ⟨answer, hanswer, hsnd⟩ := Option.map_eq_some_iff.mp hcall
  have hconf : Confined besideEtc args (.found [⟨true, [.name "etc", .name "passwd"], 1⟩] 1) :=
    (hmeets .plain).1 3 answer.1 _ (hanswer.trans (by rw [← hsnd]))
  obtain ⟨f, bytes, hf, -, root, hroot, hpre⟩ := hconf _ mem_cons_self
  have hwhere : besideEtc.ws.tree.locate [.name "etc", .name "passwd"] = some ["etc", "passwd"] := by
    decide +kernel
  have hws : besideEtc.ws.tree.canonicalize besideEtc.ws.root = some ["ws"] := by decide +kernel
  obtain rfl := Option.some.inj (hws.symm.trans hroot)
  obtain rfl := Option.some.inj (hwhere.symm.trans hf)
  exact absurd hpre (by decide)

end WorktreeTools

end Modbit
