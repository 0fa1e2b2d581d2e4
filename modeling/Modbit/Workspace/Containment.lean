import Modbit.Lib.Landing
import Modbit.Workspace.Resolution

/-!
# Where resolved paths may be written

`resolve` checks the canonical location of a path that leads to something.  Of any other
path it checks the deepest part that is there, with `Path::exists`, which takes a link to
a vacant location for nothing: such a link is never looked at, and what is created through
it lands where it points.

`contained_iff` says that this is the only way out: what is created or written at a
resolved path is under the canonical root unless the path ends in a link, itself in the
workspace, to a vacant location outside.  Missing directories and links before the last
name do no harm.
-/

namespace Modbit

open Lib List

namespace Workspace

/-- Nothing but what is under a location has changed. -/
def ChangesUnder (root : FilePath) (t t' : FileTree) : Prop := ∀ q, t'.node q ≠ t.node q → root <+: q

theorem ChangesUnder.refl (root : FilePath) (t : FileTree) : ChangesUnder root t t :=
  fun _ hq => absurd rfl hq

theorem ChangesUnder.trans {root : FilePath} {t t' t'' : FileTree} (h : ChangesUnder root t t')
    (h' : ChangesUnder root t' t'') : ChangesUnder root t t'' := by
  intro q hq
  by_cases he : t'.node q = t.node q
  · exact h' q (he.symm ▸ hq)
  · exact h q he

theorem changesUnder_write {root p q : FilePath} {t t' : FileTree} {bytes : List UInt8}
    (h : t.write p bytes = some t') (hp : t.place p = some q) (hq : root <+: q) :
    ChangesUnder root t t' := by
  obtain ⟨q', hq', -, hnode⟩ := FileTree.write_eq_some h
  rw [hp] at hq'
  obtain rfl := Option.some.inj hq'
  intro x hx
  rw [hnode] at hx
  by_cases he : x = q
  · exact he ▸ hq
  · rw [if_neg he] at hx
    exact absurd rfl hx

namespace WorkspaceFileService

/-! ### The deepest part that is there -/

variable {t : FileTree}

theorem deepestExisting_eq {d r c : FilePath} {x : String}
    (hc : t.canonicalize d = some c) (hx : t.canonicalize (d ++ [x]) = none) :
    deepestExisting t (d ++ x :: r) = some c := by
  have hbeyond : ∀ p ∈ ((x :: r).inits.tail.map (d ++ ·)).reverse, ¬ t.has p = true := by
    intro p hp hhas
    obtain ⟨r', hr', rfl⟩ := mem_map.mp (mem_reverse.mp hp)
    rw [inits_cons, tail_cons] at hr'
    obtain ⟨r'', -, rfl⟩ := mem_map.mp hr'
    have hmore : d ++ x :: r'' = d ++ [x] ++ r'' := by rw [append_assoc, singleton_append]
    rw [FileTree.has, hmore] at hhas
    exact FileTree.canonicalize_of_append (Option.isSome_iff_ne_none.mp hhas) hx
  have hself : d.inits.reverse.find? t.has = some d := by
    obtain ⟨l, hl⟩ : ∃ l, d.inits = l ++ [d] := by
      induction d using List.reverseRecOn with
      | nil => exact ⟨[], rfl⟩
      | append_singleton d y _ => exact ⟨d.inits, inits_append d [y]⟩
    rw [hl, reverse_append]
    refine find?_cons_of_pos ?_
    rw [FileTree.has, hc]
    rfl
  rw [deepestExisting, inits_append, reverse_append, find?_append,
    find?_eq_none.mpr hbeyond, Option.none_or, hself, Option.bind_some, hc]

theorem exists_deepest {p : FilePath} (h : t.canonicalize p = none) :
    ∃ d x r c, p = d ++ x :: r ∧ t.canonicalize d = some c ∧ t.canonicalize (d ++ [x]) = none := by
  induction p using List.reverseRecOn with
  | nil =>
    rw [t.canonicalize_nil] at h
    cases h
  | append_singleton p x ih =>
    cases hp : t.canonicalize p with
    | some c => exact ⟨p, x, [], c, rfl, hp, h⟩
    | none =>
      obtain ⟨d, y, r, c, rfl, hd, hy⟩ := ih hp
      exact ⟨d, y, r ++ [x], c, by rw [append_assoc, cons_append], hd, hy⟩

/-! ### Containment -/

variable {s : WorkspaceFileService} {relative : String} {d r c p : FilePath} {x : String}

/-- A path without a root of its own and without steps up. -/
def Plain (relative : String) : Prop :=
  ¬ Text.startsWith relative "/" = true ∧ ".." ∉ components relative

instance (relative : String) : Decidable (Plain relative) := inferInstanceAs (Decidable (_ ∧ _))

/-- What is at a resolved path, written, or created with the directories above it, is under the
canonical root. -/
def Contained (s : WorkspaceFileService) (relative : String) : Prop :=
  ∀ p, s.resolve relative = .ok p → ∃ root, s.tree.canonicalize s.root = some root ∧ ∀ bytes,
    (∀ t, s.tree.write p bytes = some t → ChangesUnder root s.tree t) ∧
      ChangesUnder root s.tree (s.tree.writeMaking p bytes).1

/-- The path ends in a link, in the workspace, to a vacant location outside. -/
def LeadsOut (s : WorkspaceFileService) (relative : String) : Prop :=
  Plain relative ∧ ∃ root e target q, s.tree.canonicalize s.root = some root ∧
    s.tree.entry (s.root ++ components relative) = some e ∧ root <+: e ∧
    s.tree.node e = some (.link target) ∧
    s.tree.place (s.root ++ components relative) = some q ∧ s.tree.node q = none ∧ ¬ root <+: q

theorem resolve_of_missing (hsplit : s.root ++ components relative = d ++ x :: r)
    (hc : s.tree.canonicalize d = some c) (hx : s.tree.canonicalize (d ++ [x]) = none) :
    s.resolve relative = .ok p ↔ Plain relative ∧ p = s.root ++ components relative ∧
      ∃ root, s.tree.canonicalize s.root = some root ∧ root <+: c := by
  have hnone : s.tree.canonicalize (s.root ++ components relative) = none := by
    by_contra hsome
    have hmore : d ++ x :: r = d ++ [x] ++ r := by rw [append_assoc, singleton_append]
    rw [hsplit, hmore] at hsome
    exact FileTree.canonicalize_of_append hsome hx
  have hdeep : deepestExisting s.tree (s.root ++ components relative) = some c :=
    hsplit ▸ deepestExisting_eq hc hx
  rw [resolve]
  by_cases habs : Text.startsWith relative "/" = true
  · rw [if_pos habs]
    exact ⟨(fun h => by cases h), fun h => absurd habs h.1.1⟩
  · rw [if_neg habs]
    by_cases hup : ".." ∈ components relative
    · rw [if_pos hup]
      exact ⟨(fun h => by cases h), fun h => absurd hup h.1.2⟩
    · rw [if_neg hup]
      dsimp only
      rw [hnone, hdeep]
      constructor
      · intro h
        obtain ⟨u, hu, rfl⟩ := map_eq_ok.mp h
        exact ⟨⟨habs, hup⟩, rfl, contained_eq_ok.mp hu⟩
      · rintro ⟨-, rfl, hroot⟩
        exact map_eq_ok.mpr ⟨(), contained_eq_ok.mpr hroot, rfl⟩

/-- Before its last name a path that leads to a location is at a directory, the deepest part
that is there when the location is vacant. -/
theorem exists_parent {q : FilePath} (hp : t.place p = some q)
    (hq : t.node q = none) : ∃ dir x c, p = dir ++ [x] ∧ t.canonicalize dir = some c ∧
      t.node c = some .dir ∧ t.entry p = some (c ++ [x]) ∧ t.canonicalize (dir ++ [x]) = none := by
  have hne : p ≠ [] := by
    rintro rfl
    rw [(FileTree.canonicalize_eq_some.mp t.canonicalize_nil).1] at hp
    obtain rfl := Option.some.inj hp
    have hroot : t.node [] = some .dir := t.root
    rw [hroot] at hq
    cases hq
  obtain ⟨dir, x, rfl⟩ : ∃ dir x, p = dir ++ [x] :=
    ⟨_, _, (dropLast_append_getLast hne).symm⟩
  have hwalk := hp
  rw [FileTree.place, map_append] at hwalk
  obtain ⟨c, hc, hdir⟩ := FileTree.walk_of_snoc _ _ _ t.root hwalk
  refine ⟨dir, x, c, rfl,
    FileTree.canonicalize_eq_some.mpr ⟨hc, hdir ▸ Option.some_ne_none _⟩, hdir, ?_, ?_⟩
  · have hplace : t.place dir = some c := hc
    rw [FileTree.entry, getLast?_concat, dropLast_concat, hplace]
    dsimp only
    rw [Option.filter_some, if_pos (decide_eq_true hdir), Option.map_some]
  · rw [FileTree.canonicalize, hp, Option.filter_some, hq]
    rfl

theorem under_of_vacant {q root : FilePath} (h : ¬ s.LeadsOut relative)
    (hres : s.resolve relative = .ok p) (hroot : s.tree.canonicalize s.root = some root)
    (hp : s.tree.place (s.root ++ components relative) = some q) (hq : s.tree.node q = none) :
    root <+: q := by
  obtain ⟨dir, x, c, hsplit, hc, hdir, hentry, hx⟩ := exists_parent hp hq
  obtain ⟨hplain, -, root', hroot', hunder⟩ := (resolve_of_missing hsplit hc hx).mp hres
  rw [hroot] at hroot'
  obtain rfl := Option.some.inj hroot'
  have hentryUnder : root <+: c ++ [x] := hunder.trans (prefix_append _ _)
  by_cases hlink : ∃ target, s.tree.node (c ++ [x]) = some (.link target)
  · obtain ⟨target, hl⟩ := hlink
    by_contra hout
    exact h ⟨hplain, root, c ++ [x], target, q, hroot, hentry, hentryUnder, hl, hp, hq, hout⟩
  · have hself := FileTree.place_of_entry hentry (fun target hl => hlink ⟨target, hl⟩)
    rw [hp] at hself
    exact Option.some.inj hself ▸ hentryUnder

/-- What `create` does to the tree: nothing, or what creating the file does. -/
theorem tree_create (bytes : List UInt8) (hres : s.resolve relative = .ok p) :
    (s.create relative bytes).1.tree = s.tree ∨
      (s.create relative bytes).1.tree = (s.tree.writeMaking p bytes).1 := by
  rw [create, resolving, hres]
  dsimp only
  split_ifs with hhas
  · exact Or.inl rfl
  have hp : p ≠ [] := by
    rintro rfl
    rw [FileTree.has, s.tree.canonicalize_nil] at hhas
    exact hhas rfl
  rw [FileTree.writeMaking_eq hp, doing]
  cases s.tree.createDirAll p.dropLast with
  | none => exact Or.inl rfl
  | some t =>
    refine Or.inr ?_
    dsimp only
    rw [doing, Option.getD_some]
    cases t.write p bytes with
    | none => rfl
    | some t' => rfl

theorem changesUnder_chain {root : FilePath} (hres : s.resolve relative = .ok p)
    (hroot : s.tree.canonicalize s.root = some root)
    (hmissing : s.tree.canonicalize (s.root ++ components relative) = none)
    (hp : p = s.root ++ components relative) (hdirs : s.tree.createDirAll p.dropLast = some t) :
    ChangesUnder root s.tree t ∧ (t = s.tree ∨ ∀ q, t.place p = some q → root <+: q) := by
  have hne : p ≠ [] := by
    rintro rfl
    rw [← hp, s.tree.canonicalize_nil] at hmissing
    cases hmissing
  rcases FileTree.createDirAll_deepens hdirs with
    ⟨rfl, -⟩ | ⟨d, x, r, c, hparent, hc, hdir, hnone, hplace, hnode⟩
  · exact ⟨.refl _ _, Or.inl rfl⟩
  have hsplit : s.root ++ components relative = d ++ x :: (r ++ [p.getLast hne]) := by
    rw [← hp, ← cons_append, ← append_assoc, ← hparent, dropLast_append_getLast hne]
  have hx : s.tree.canonicalize (d ++ [x]) = none := by
    rw [FileTree.canonicalize, FileTree.place_snoc (FileTree.canonicalize_eq_some.mp hc).1 hdir
      (fun target hl => by rw [hnone] at hl; cases hl), Option.filter_some, hnone]
    rfl
  obtain ⟨-, -, root', hroot', hunder⟩ := (resolve_of_missing hsplit hc hx).mp hres
  rw [hroot] at hroot'
  obtain rfl := Option.some.inj hroot'
  refine ⟨fun y hy => ?_, Or.inr (fun q hq => ?_)⟩
  · rw [hnode] at hy
    split_ifs at hy with hin
    · exact (hunder.trans (prefix_append _ _)).trans hin.1
    · exact absurd rfl hy
  · obtain ⟨hdir', hvacant⟩ := FileTree.chain_end hnone hnode
    have hend := FileTree.place_snoc hplace hdir' (fun target hl => by
      rw [hvacant (p.getLast hne)] at hl; cases hl)
    rw [dropLast_append_getLast hne, hq] at hend
    rw [Option.some.inj hend, append_assoc]
    exact hunder.trans (prefix_append _ _)

/-- **A resolved path is created and written under the root exactly when it does not end in a
link, in the workspace, to a vacant location outside.** -/
theorem contained_iff : s.Contained relative ↔ ¬ s.LeadsOut relative := by
  constructor
  · rintro h ⟨hplain, root, e, target, q, hroot, hentry, hunder, hlink, hp, hq, hout⟩
    obtain ⟨dir, x, c, hsplit, hc, hdir, hentry', hx⟩ := exists_parent hp hq
    rw [hentry'] at hentry
    obtain rfl := Option.some.inj hentry
    have hroot' : root <+: c := by
      rcases prefix_concat_iff.mp hunder with rfl | h'
      · exact absurd hlink (FileTree.place_notLink (FileTree.canonicalize_eq_some.mp hroot).1 target)
      · exact h'
    have hres := (resolve_of_missing hsplit hc hx).mpr ⟨hplain, rfl, root, hroot, hroot'⟩
    obtain ⟨root', hsame, hbytes⟩ := h _ hres
    rw [hroot] at hsame
    obtain rfl := Option.some.inj hsame
    have hslot := FileTree.slot_of_vacant hp hq
    refine hout ((hbytes []).1 _ (FileTree.write_of_slot hp hslot) q ?_)
    rw [FileTree.node_update hslot, if_pos rfl, hq]
    exact Option.some_ne_none _
  · intro h p hres
    rcases resolve_eq_ok hres with ⟨hc, hin⟩ | ⟨hnone, rfl⟩
    · obtain ⟨root, hroot, hunder⟩ := contained_eq_ok.mp hin
      obtain ⟨hplace, hnode⟩ := FileTree.canonicalize_eq_some.mp hc
      obtain ⟨n, hn⟩ := Option.ne_none_iff_exists'.mp hnode
      have hself : s.tree.place p = some p := FileTree.place_of_node hn (fun target hl =>
        FileTree.place_notLink hplace target (hl ▸ hn))
      refine ⟨root, hroot, fun bytes => ⟨fun t ht => changesUnder_write ht hself hunder, ?_⟩⟩
      -- The directory above it is there.
      have hmade : (if p = [] then s.tree else (s.tree.createDirAll p.dropLast).getD s.tree)
          = s.tree := by
        split_ifs with hp
        · rfl
        · rw [FileTree.createDirAll_of_dir ((FileTree.parent_of_node hnode).resolve_left hp)]
          rfl
      rw [FileTree.writeMaking, hmade]
      cases hwrite : s.tree.write p bytes with
      | none => exact .refl _ _
      | some t => exact changesUnder_write hwrite hself hunder
    · obtain ⟨d, x, r, c, hsplit, hc, hx⟩ := exists_deepest hnone
      obtain ⟨-, -, root, hroot, -⟩ := (resolve_of_missing hsplit hc hx).mp hres
      refine ⟨root, hroot, fun bytes => ?_⟩
      have hwrite : ∀ t, s.tree.write (s.root ++ components relative) bytes = some t →
          ChangesUnder root s.tree t := by
        intro t ht
        obtain ⟨q, hp, -, -⟩ := FileTree.write_eq_some ht
        have hq : s.tree.node q = none := by
          by_contra hsome
          rw [FileTree.canonicalize_eq_some.mpr ⟨hp, hsome⟩] at hnone
          cases hnone
        exact changesUnder_write ht hp (under_of_vacant h hres hroot hp hq)
      refine ⟨hwrite, ?_⟩
      have hne : s.root ++ components relative ≠ [] := fun hp => by
        rw [hp, s.tree.canonicalize_nil] at hnone
        cases hnone
      rw [FileTree.writeMaking_eq hne]
      cases hdirs : s.tree.createDirAll (s.root ++ components relative).dropLast with
      | none =>
        rw [Option.getD_none]
        cases hlast : s.tree.write (s.root ++ components relative) bytes with
        | none => exact .refl _ _
        | some t => exact hwrite t hlast
      | some t =>
        rw [Option.getD_some]
        obtain ⟨hchain, hplace⟩ := changesUnder_chain hres hroot hnone rfl hdirs
        cases hlast : t.write (s.root ++ components relative) bytes with
        | none => exact hchain
        | some t' =>
          rcases hplace with rfl | hplace
          · exact hwrite t' hlast
          · obtain ⟨q, hp, -, -⟩ := FileTree.write_eq_some hlast
            exact hchain.trans (changesUnder_write hlast hp (hplace q hp))

def symlink (t : FileTree) (target : LinkTarget) (p : FilePath) : Option FileTree :=
  match t.entry p with
  | none => none
  | some q =>
    if h : t.Slot q ∧ t.node q = none then some (t.update q (some (.link target)) (.of_vacant h)) else none

/-- A workspace at `/ws` with one entry, a link to `/secret`, where there is nothing. -/
def dangling : WorkspaceFileService where
  root := ["ws"]
  tree := ((FileTree.empty.createDirAll ["ws"]).bind
    (symlink · ⟨true, [.name "secret"]⟩ ["ws", "out"])).getD .empty
  revisions := .empty
  journal := []

/-- The link is taken for nothing, and the file is created where it points. -/
theorem create_through_dangling :
    dangling.resolve "out" = .ok ["ws", "out"] ∧ (dangling.create "out" [1]).2 = .ok 1 ∧
      (dangling.create "out" [1]).1.tree.node ["secret"] = some (.file [1]) ∧
      ¬ dangling.Contained "out" := by
  have hnew : (dangling.create "out" [1]).1.tree.node ["secret"] = some (.file [1]) := by
    decide +kernel
  have hres : dangling.resolve "out" = .ok ["ws", "out"] := by decide +kernel
  refine ⟨hres, by decide +kernel, hnew, fun h => ?_⟩
  obtain ⟨root, hroot, hbytes⟩ := h _ hres
  have hws : dangling.tree.canonicalize dangling.root = some ["ws"] := by decide +kernel
  obtain rfl := Option.some.inj (hws.symm.trans hroot)
  have hvacant : dangling.tree.node ["secret"] = none := by decide +kernel
  have htree : (dangling.create "out" [1]).1.tree = (dangling.tree.writeMaking ["ws", "out"] [1]).1 := by
    refine (tree_create [1] hres).resolve_left fun hsame => ?_
    rw [hsame, hvacant] at hnew
    cases hnew
  rw [htree] at hnew
  have hunder := (hbytes [1]).2 ["secret"] (by rw [hnew, hvacant]; exact Option.some_ne_none _)
  exact absurd hunder (by decide)

end WorkspaceFileService

end Workspace

end Modbit
