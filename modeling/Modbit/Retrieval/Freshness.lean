import Modbit.Lib.Run
import Modbit.Retrieval.TaskIndex

/-!
# Refreshed and rebuilt indexes

An edit of the worktree comes with the list of the paths it changed, `Exact`.  The index
refreshed edit by edit has the files and the import edges of one built from the last
worktree, `refreshed_eq_built`, when every edit is `Kept`: what it makes readable the
walker admits, and it leaves the imports of the files it does not change where they were.

The refresh has none of the walker's rules but the one on binary files, and does not look
at unchanged files again: `refresh_differs`.
-/

namespace Modbit

open Lib List

namespace Retrieval

variable {root : FilePath}

/-! ### Edits -/

def changedRels (w w' : Worktree root) : List (List String) :=
  (((w.tree.nodes.keys ++ w'.tree.nodes.keys).filter (fun k => root <+: k)).map
    (fun k => k.drop root.length)).filter (fun rel => w.leaf rel ≠ w'.leaf rel)

theorem mem_changedRels {w w' : Worktree root} {rel : List String} :
    rel ∈ changedRels w w' ↔ w.leaf rel ≠ w'.leaf rel := by
  rw [changedRels, mem_filter, decide_eq_true_eq]
  refine and_iff_right_of_imp (fun hne => ?_)
  have hkey : ∀ u : Worktree root, u.leaf rel ≠ none → root ++ rel ∈ u.tree.nodes.keys := by
    intro u hu
    obtain ⟨n, hn⟩ := Option.ne_none_iff_exists'.mp hu
    exact u.mem_keys (Option.filter_eq_some_iff.mp hn).1
  refine mem_map.mpr ⟨root ++ rel, mem_filter.mpr ⟨mem_append.mpr ?_, ?_⟩, ?_⟩
  · by_cases hw : w.leaf rel = none
    · exact Or.inr (hkey w' (fun hw' => hne (hw.trans hw'.symm)))
    · exact Or.inl (hkey w hw)
  · exact decide_eq_true (prefix_append _ _)
  · exact drop_left

theorem named_of_changed {w w' : Worktree root} {rel : List String}
    (h : w.leaf rel ≠ w'.leaf rel) : Named rel := by
  by_cases hw : w.leaf rel = none
  · exact w'.named_of_leaf (fun hw' => h (hw.trans hw'.symm))
  · exact w.named_of_leaf hw

/-- The changes name exactly the paths that changed, and call gone what is gone. -/
structure Exact (w w' : Worktree root) (changes : List IndexChange) : Prop where
  names : ∀ c ∈ changes, ∃ rel ∈ changedRels w w', c.path = relText rel
  all : ∀ rel ∈ changedRels w w', ∃ c ∈ changes, c.path = relText rel
  gone : ∀ rel ∈ changedRels w w',
    (latest changes).find? (relText rel) = some true → w'.leaf rel = none

section Parameters

variable (ignores : List String → IgnoreMatch)
  (parse : Lang → List UInt8 → List (String × DepKind))

/-- No name has a backslash in it; a changed path that can be read as text is a regular
file that the walker admits; and each import of a file that is not changed resolves
against the new files to what it did before, or to nothing if that is gone. -/
structure Kept (w w' : Worktree root) (changes : List IndexChange) : Prop where
  plain : w'.Plain
  walked : ∀ rel ∈ changedRels w w', (latest changes).find? (relText rel) = some false →
    ∀ bytes ∈ w'.readPath (relText rel), isIndexable bytes = true →
      ∃ b ∈ w'.tree.fileAt (root ++ rel), admits ignores rel b.length = true
  imports : ∀ e ∈ (walkWorktree ignores w).entries, (latest changes).find? e.1 = none →
    ∀ dep ∈ importsOf parse e.1 e.2,
      resolve e.1 dep.1 dep.2 (walkWorktree ignores w').keys
        = (resolve e.1 dep.1 dep.2 (walkWorktree ignores w).keys).filter
            (fun found => (walkWorktree ignores w').keys.contains found)

/-- **Imports are kept** where no candidate of an import of an unchanged file comes or goes. -/
theorem kept_of_candidates {w w' : Worktree root} {changes : List IndexChange} (hplain : w'.Plain)
    (hwalked : ∀ rel ∈ changedRels w w', (latest changes).find? (relText rel) = some false →
      ∀ bytes ∈ w'.readPath (relText rel), isIndexable bytes = true →
        ∃ b ∈ w'.tree.fileAt (root ++ rel), admits ignores rel b.length = true)
    (h : ∀ e ∈ (walkWorktree ignores w).entries, (latest changes).find? e.1 = none →
      ∀ dep ∈ importsOf parse e.1 e.2, ∀ cand ∈ candidates e.1 dep.1.toList dep.2,
        (walkWorktree ignores w').keys.contains cand = (walkWorktree ignores w).keys.contains cand) :
    Kept ignores parse w w' changes where
  plain := hplain
  walked := hwalked
  imports e he hlatest dep hdep := by
    have hsame := h e he hlatest dep hdep
    rw [resolve_congr hsame]
    cases hres : resolve e.1 dep.1 dep.2 (walkWorktree ignores w).keys with
    | none => rfl
    | some found =>
      have hknown := contains_iff_mem.mpr (resolve_mem hres)
      rw [Option.filter_some, if_pos ((hsame found (resolve_mem_candidates hres)).trans hknown)]

end Parameters

instance (w w' : Worktree root) (changes : List IndexChange) : Decidable (Exact w w' changes) :=
  decidable_of_iff ((∀ c ∈ changes, ∃ rel ∈ changedRels w w', c.path = relText rel) ∧
    (∀ rel ∈ changedRels w w', ∃ c ∈ changes, c.path = relText rel) ∧
    ∀ rel ∈ changedRels w w',
      (latest changes).find? (relText rel) = some true → w'.leaf rel = none)
    ⟨fun h => ⟨h.1, h.2.1, h.2.2⟩, fun h => ⟨h.names, h.all, h.gone⟩⟩

instance (ignores : List String → IgnoreMatch)
    (parse : Lang → List UInt8 → List (String × DepKind)) (w w' : Worktree root)
    (changes : List IndexChange) : Decidable (Kept ignores parse w w' changes) :=
  decidable_of_iff (w'.Plain ∧
    (∀ rel ∈ changedRels w w', (latest changes).find? (relText rel) = some false →
      ∀ bytes ∈ w'.readPath (relText rel), isIndexable bytes = true →
        ∃ b ∈ w'.tree.fileAt (root ++ rel), admits ignores rel b.length = true) ∧
    ∀ e ∈ (walkWorktree ignores w).entries, (latest changes).find? e.1 = none →
      ∀ dep ∈ importsOf parse e.1 e.2,
        resolve e.1 dep.1 dep.2 (walkWorktree ignores w').keys
          = (resolve e.1 dep.1 dep.2 (walkWorktree ignores w).keys).filter
              (fun found => (walkWorktree ignores w').keys.contains found))
    ⟨fun h => ⟨h.1, h.2.1, h.2.2⟩, fun h => ⟨h.plain, h.walked, h.imports⟩⟩

/-! ### The changed files -/

section Changes

variable {ignores : List String → IgnoreMatch}
  {parse : Lang → List UInt8 → List (String × DepKind)} {w w' : Worktree root}
  {changes : List IndexChange}

theorem latest_eq_none {x : String} :
    (latest changes).find? x = none ↔ ∀ c ∈ changes, c.path ≠ x := by
  have hlist : latest changes = .ofList (changes.map (fun c => (c.path, c.deleted))) := by
    rw [latest, OrdMap.ofList, OrdMap.insertAll, foldl_map]
  rw [hlist, OrdMap.find?_ofList, lookup_eq_none_iff]
  constructor
  · intro h c hc hx
    have hne := h (c.path, c.deleted) (mem_reverse.mpr (mem_map.mpr ⟨c, hc, rfl⟩))
    exact bne_iff_ne.mp hne hx.symm
  · intro h e he
    obtain ⟨c, hc, rfl⟩ := mem_map.mp (mem_reverse.mp he)
    exact bne_iff_ne.mpr (Ne.symm (h c hc))

theorem find?_changedFiles (x : String) :
    (changedFiles w' changes).find? x = ((latest changes).find? x).bind (reread w' x) :=
  OrdMap.find?_filterMap _ _ x

theorem mem_deletedPaths {x : String} :
    x ∈ deletedPaths w' changes ↔ ∃ gone, (latest changes).find? x = some gone ∧
      reread w' x gone = none := by
  rw [deletedPaths, mem_map]
  constructor
  · rintro ⟨e, he, rfl⟩
    obtain ⟨hent, hnone⟩ := mem_filter.mp he
    exact ⟨e.2, OrdMap.mem_entries.mp hent, Option.isNone_iff_eq_none.mp hnone⟩
  · rintro ⟨gone, hlatest, hnone⟩
    refine ⟨(x, gone), mem_filter.mpr ⟨OrdMap.mem_entries.mpr hlatest, ?_⟩, rfl⟩
    rw [hnone]
    rfl

theorem reread_eq_found (hexact : Exact w w' changes) (hkept : Kept ignores parse w w' changes)
    {rel : List String} (hrel : rel ∈ changedRels w w') {gone : Bool}
    (hlatest : (latest changes).find? (relText rel) = some gone) :
    reread w' (relText rel) gone = w'.found ignores rel := by
  have hnamed := named_of_changed (mem_changedRels.mp hrel)
  cases gone with
  | true =>
    rw [reread, if_pos rfl]
    cases hfound : w'.found ignores rel with
    | none => rfl
    | some bytes =>
      have hleaf := w'.leaf_of_found hfound
      rw [hexact.gone rel hrel hlatest] at hleaf
      cases hleaf
  | false =>
    rw [reread, if_neg Bool.false_ne_true]
    cases hfound : w'.found ignores rel with
    | some bytes =>
      obtain ⟨hnode, -, hindexable⟩ := w'.found_eq_some hfound
      rw [w'.readPath_relText hnamed hnode, Option.filter_some, if_pos hindexable]
    | none =>
      refine Option.eq_none_iff_forall_ne_some.mpr (fun bytes hbytes => ?_)
      obtain ⟨hread, hindexable⟩ := Option.filter_eq_some_iff.mp hbytes
      obtain ⟨b, hfile, hadmits⟩ := hkept.walked rel hrel hlatest bytes hread hindexable
      have hnode : w'.tree.node (root ++ rel) = some (.file b) := FileTree.node_of_fileAt hfile
      rw [w'.readPath_relText hnamed hnode] at hread
      obtain rfl := Option.some.inj hread
      rw [w'.found_of_node hnode hadmits hindexable] at hfound
      cases hfound

/-- What the refresh knows of a path: what the walker takes there now, if the path is
named by the changes, and else that the walker takes what it took before. -/
theorem refreshed (hplain : w.Plain) (hexact : Exact w w' changes)
    (hkept : Kept ignores parse w w' changes) (x : String) :
    ((latest changes).find? x ≠ none →
      (changedFiles w' changes).find? x = (walkWorktree ignores w').find? x ∧
      (x ∈ deletedPaths w' changes ↔ (walkWorktree ignores w').find? x = none)) ∧
    ((latest changes).find? x = none → (changedFiles w' changes).find? x = none ∧
      x ∉ deletedPaths w' changes ∧
      (walkWorktree ignores w').find? x = (walkWorktree ignores w).find? x) := by
  constructor
  · intro hlatest
    obtain ⟨gone, hgone⟩ := Option.ne_none_iff_exists'.mp hlatest
    have hnamed : ∃ rel ∈ changedRels w w', x = relText rel := by
      by_contra hnone
      refine hlatest (latest_eq_none.mpr (fun c hc hx => hnone ?_))
      obtain ⟨rel, hrel, hpath⟩ := hexact.names c hc
      exact ⟨rel, hrel, hx.symm.trans hpath⟩
    obtain ⟨rel, hrel, rfl⟩ := hnamed
    have hread := reread_eq_found hexact hkept hrel hgone
    have hwalk := @find?_walkWorktree ignores _ _ _ hkept.plain
      (named_of_changed (mem_changedRels.mp hrel))
    rw [find?_changedFiles, hgone, Option.bind_some, hread, hwalk, mem_deletedPaths]
    refine ⟨rfl, ?_⟩
    constructor
    · rintro ⟨g, hg, hnone⟩
      obtain rfl := Option.some.inj (hgone.symm.trans hg)
      exact hread.symm.trans hnone
    · exact fun hnone => ⟨gone, hgone, hread.trans hnone⟩
  · intro hlatest
    refine ⟨?_, ?_, ?_⟩
    · rw [find?_changedFiles, hlatest]
      rfl
    · rw [mem_deletedPaths]
      rintro ⟨gone, hgone, -⟩
      rw [hlatest] at hgone
      cases hgone
    · -- nothing changed at the path
      have hsame : ∀ rel, x = relText rel → w.leaf rel = w'.leaf rel := by
        rintro rel rfl
        by_contra hne
        obtain ⟨c, hc, hpath⟩ := hexact.all rel (mem_changedRels.mpr hne)
        exact latest_eq_none.mp hlatest c hc hpath
      refine Option.ext (fun bytes => ⟨fun h => ?_, fun h => ?_⟩)
      · obtain ⟨rel, hnamed, hx, hfound⟩ := exists_of_walkWorktree hkept.plain h
        rw [hx, find?_walkWorktree hplain hnamed, Worktree.found_congr (hsame rel hx)]
        exact hfound
      · obtain ⟨rel, hnamed, hx, hfound⟩ := exists_of_walkWorktree hplain h
        rw [hx, find?_walkWorktree hkept.plain hnamed, ← Worktree.found_congr (hsame rel hx)]
        exact hfound

end Changes

/-! ### Files and edges after a pass -/

theorem files_indexFiles (l : List (String × List UInt8)) (revision : Nat) :
    ∀ r : RepositoryIndex, (l.foldl (fun r e => r.indexFile e.1 e.2 revision) r).files
      = l.foldl (fun m e => m.put e.1 (some (fileEntry revision e.2))) r.files := by
  induction l with
  | nil => exact fun r => rfl
  | cons e l ih => exact fun r => ih _

theorem files_removeFiles (l : List String) : ∀ r : RepositoryIndex,
    (l.foldl RepositoryIndex.removeFile r).files = r.files.eraseAll l := by
  induction l with
  | nil => exact fun r => rfl
  | cons x l ih => exact fun r => ih _

theorem edges_removeFiles (l : List String) : ∀ d : DependencyIndex,
    (l.foldl DependencyIndex.removeFile d).edges = d.edges.eraseAll l := by
  induction l with
  | nil => exact fun d => rfl
  | cons x l ih => exact fun d => ih _

section Edges

variable {parse : Lang → List UInt8 → List (String × DepKind)} {known known' : List String}
  {x : String} {bytes : List UInt8}

theorem edges_indexFiles (l : List (String × List UInt8)) (hl : ∀ e ∈ l, slashed e.1 = e.1) :
    ∀ d : DependencyIndex, (l.foldl (fun d e => d.indexFile parse e.1 e.2 known) d).edges
      = l.foldl (fun m e => m.put e.1 (nonEmpty (targetsOf parse e.1 e.2 known))) d.edges := by
  induction l with
  | nil => exact fun d => rfl
  | cons e l ih =>
    intro d
    have hslashed := hl e mem_cons_self
    rw [foldl_cons, foldl_cons, ih (fun e' he' => hl e' (mem_cons_of_mem e he')),
      DependencyIndex.indexFile, hslashed]

/-- **Pruned targets are the new targets,** if each import resolves as it did, or to
nothing where what it resolved to is gone. -/
theorem pruned_targetsOf (h : ∀ dep ∈ importsOf parse x bytes, resolve x dep.1 dep.2 known'
      = (resolve x dep.1 dep.2 known).filter (fun found => known'.contains found)) :
    DependencyIndex.pruned known' (targetsOf parse x bytes known)
      = targetsOf parse x bytes known' := by
  have htarget : ∀ dep ∈ importsOf parse x bytes, targetOf x known' dep
      = (targetOf x known dep).filter (fun t => known'.contains t.1) := by
    intro dep hdep
    rw [targetOf, targetOf, h dep hdep]
    cases resolve x dep.1 dep.2 known with
    | none => rfl
    | some found =>
      rw [Option.filter_some]
      by_cases hgone : known'.contains found = true
      · rw [if_pos hgone]
        dsimp only
        split_ifs
        · rw [Option.filter_some, if_pos hgone]
        · rfl
      · rw [if_neg hgone]
        dsimp only
        split_ifs
        · rw [Option.filter_some, if_neg hgone]
        · rfl
  refine OrdMap.ext (fun k => ?_)
  rw [DependencyIndex.pruned, OrdMap.find?_filterMap, targetsOf, targetsOf, OrdMap.find?_ofList,
    OrdMap.find?_ofList, filterMap_congr htarget, ← filter_filterMap,
    ← filter_reverse, OrdMap.lookup_filter]
  cases List.lookup k ((importsOf parse x bytes).filterMap (targetOf x known)).reverse with
  | none => simp
  | some kind => rfl

theorem nonEmpty_bind (targets : OrdMap String String) :
    (nonEmpty targets).bind (fun t => nonEmpty (DependencyIndex.pruned known t))
      = nonEmpty (DependencyIndex.pruned known targets) := by
  rw [nonEmpty]
  split_ifs with hempty
  · have : (DependencyIndex.pruned known targets).entries = [] := by
      show targets.entries.filterMap _ = []
      rw [hempty]
      rfl
    rw [nonEmpty, if_pos this]
    rfl
  · rfl

end Edges

/-! ### Agreement -/

namespace TaskIndex

variable {ignores : List String → IgnoreMatch}
  {parse : Lang → List UInt8 → List (String × DepKind)} {index : TaskIndex}
  {w w' : Worktree root} {changes : List IndexChange} {revision : Nat}

theorem find?_refreshRepo (changed : Merkle.Files) (deleted : List String) (x : String) :
    (index.refreshRepo changed deleted revision).files.find? x
      = if x ∈ deleted then none
        else (changed.find? x).elim (index.repo.files.find? x)
          (fun bytes => some (fileEntry revision bytes)) := by
  rw [refreshRepo, files_removeFiles, OrdMap.find?_eraseAll, files_indexFiles,
    OrdMap.find?_putAll (fun _ bytes => some (fileEntry revision bytes))]

theorem find?_refreshDeps {changed : Merkle.Files} (hslashed : ∀ e ∈ changed.entries, slashed e.1 = e.1)
    (deleted known : List String) (x : String) :
    (index.refreshDeps parse changed deleted known).edges.find? x
      = (if x ∈ deleted then none
        else (changed.find? x).elim (index.deps.edges.find? x)
          (fun bytes => nonEmpty (targetsOf parse x bytes known))).bind
            (fun t => nonEmpty (DependencyIndex.pruned known t)) := by
  rw [refreshDeps, DependencyIndex.prune, OrdMap.find?_filterMap, edges_removeFiles,
    OrdMap.find?_eraseAll, edges_indexFiles _ hslashed,
    OrdMap.find?_putAll (fun y bytes => nonEmpty (targetsOf parse y bytes known))]

/-- The index has the files the walker takes, and their imports resolved among these. -/
structure Agrees (ignores : List String → IgnoreMatch)
    (parse : Lang → List UInt8 → List (String × DepKind)) (index : TaskIndex)
    (w : Worktree root) : Prop where
  files : ∀ x, (index.repo.files.find? x).isSome = ((walkWorktree ignores w).find? x).isSome
  edges : ∀ x, index.deps.edges.find? x = ((walkWorktree ignores w).find? x).bind
    (fun bytes => nonEmpty (targetsOf parse x bytes (walkWorktree ignores w).keys))

theorem slashed_of_walk (h : w.Plain) {x : String} {bytes : List UInt8}
    (hx : (walkWorktree ignores w).find? x = some bytes) : slashed x = x := by
  obtain ⟨rel, -, rfl, hfound⟩ := exists_of_walkWorktree h hx
  exact h.relDisplay_eq (w.found_eq_some hfound).1

theorem agrees_buildAt (h : w.Plain) (revision : Nat) :
    Agrees ignores parse (buildAt ignores parse w revision) w := by
  refine ⟨fun x => ?_, fun x => ?_⟩
  · rw [buildAt, files_indexFiles,
      OrdMap.find?_putAll (fun _ bytes => some (fileEntry revision bytes))]
    cases (walkWorktree ignores w).find? x with
    | none => rfl
    | some bytes => rfl
  · rw [buildAt, edges_indexFiles _ (fun e he => slashed_of_walk h (OrdMap.mem_entries.mp he)),
      OrdMap.find?_putAll
        (fun y bytes => nonEmpty (targetsOf parse y bytes (walkWorktree ignores w).keys))]
    cases (walkWorktree ignores w).find? x with
    | none => rfl
    | some bytes => rfl

theorem Agrees.eq {other : TaskIndex} (h : Agrees ignores parse index w)
    (h' : Agrees ignores parse other w) :
    index.repo.files.keys = other.repo.files.keys ∧ index.deps = other.deps := by
  refine ⟨OrdMap.keys_congr (fun x => (h.files x).trans (h'.files x).symm), ?_⟩
  have hedges : index.deps.edges = other.deps.edges :=
    OrdMap.ext (fun x => (h.edges x).trans (h'.edges x).symm)
  cases hd : index.deps
  cases hd' : other.deps
  rw [hd, hd'] at hedges
  exact congrArg DependencyIndex.mk hedges

/-- **A refresh for a kept edit keeps the index in agreement with the worktree.** -/
theorem agrees_applyDelta (h : Agrees ignores parse index w) (hplain : w.Plain)
    (hexact : Exact w w' changes) (hkept : Kept ignores parse w w' changes) (revision : Nat) :
    Agrees ignores parse (index.applyDelta parse w' changes revision).1 w' := by
  have hfiles : ∀ x, ((index.refreshRepo (changedFiles w' changes) (deletedPaths w' changes)
      revision).files.find? x).isSome = ((walkWorktree ignores w').find? x).isSome := by
    intro x
    obtain ⟨hnamed, hother⟩ := refreshed hplain hexact hkept x
    rw [find?_refreshRepo]
    by_cases hlatest : (latest changes).find? x = none
    · obtain ⟨hchanged, hdeleted, hsame⟩ := hother hlatest
      rw [if_neg hdeleted, hchanged, hsame]
      exact h.files x
    · obtain ⟨hchanged, hdeleted⟩ := hnamed hlatest
      cases hwalk : (walkWorktree ignores w').find? x with
      | none =>
        rw [if_pos (hdeleted.mpr hwalk)]
        rfl
      | some bytes =>
        rw [if_neg (fun hmem => by rw [hdeleted.mp hmem] at hwalk; cases hwalk), hchanged, hwalk]
        rfl
  have hknown : (index.refreshRepo (changedFiles w' changes) (deletedPaths w' changes)
      revision).files.keys = (walkWorktree ignores w').keys := OrdMap.keys_congr hfiles
  refine ⟨hfiles, fun x => ?_⟩
  show (index.refreshDeps parse (changedFiles w' changes) (deletedPaths w' changes) _).edges.find? x = _
  rw [hknown, find?_refreshDeps]
  · obtain ⟨hnamed, hother⟩ := refreshed hplain hexact hkept x
    by_cases hlatest : (latest changes).find? x = none
    · obtain ⟨hchanged, hdeleted, hsame⟩ := hother hlatest
      rw [if_neg hdeleted, hchanged, Option.elim_none, hsame, h.edges x]
      cases hwalk : (walkWorktree ignores w).find? x with
      | none => rfl
      | some bytes =>
        rw [Option.bind_some, Option.bind_some, nonEmpty_bind, pruned_targetsOf]
        exact hkept.imports (x, bytes) (OrdMap.mem_entries.mpr hwalk) hlatest
    · obtain ⟨hchanged, hdeleted⟩ := hnamed hlatest
      cases hwalk : (walkWorktree ignores w').find? x with
      | none =>
        rw [if_pos (hdeleted.mpr hwalk)]
        rfl
      | some bytes =>
        rw [if_neg (fun hmem => by rw [hdeleted.mp hmem] at hwalk; cases hwalk), hchanged, hwalk,
          Option.elim_some, nonEmpty_bind, Option.bind_some, pruned_targetsOf]
        -- what a changed file imports is among the files already
        intro dep _
        cases hres : resolve x dep.1 dep.2 (walkWorktree ignores w').keys with
        | none => rfl
        | some found =>
          rw [Option.filter_some, if_pos (contains_iff_mem.mpr (resolve_mem hres))]
  · intro e he
    have hfind := OrdMap.mem_entries.mp he
    have hlatest : (latest changes).find? e.1 ≠ none := by
      intro hnone
      rw [((refreshed hplain hexact hkept e.1).2 hnone).1] at hfind
      cases hfind
    rw [((refreshed hplain hexact hkept e.1).1 hlatest).1] at hfind
    exact slashed_of_walk hkept.plain hfind

/-! ### Sequences of edits -/

end TaskIndex

/-- The worktree after an edit, the changes it comes with, and the revision. -/
structure Edit (root : FilePath) where
  worktree : Worktree root
  changes : List IndexChange
  newRevision : Nat

section Edits

variable (ignores : List String → IgnoreMatch)
  (parse : Lang → List UInt8 → List (String × DepKind))

/-- A worktree with the index that is refreshed at every edit. -/
def refresh (st : Worktree root × TaskIndex) (e : Edit root) :
    (Worktree root × TaskIndex) × List Merkle.Recomputed :=
  let (index, recomputed) := st.2.applyDelta parse e.worktree e.changes e.newRevision
  ((e.worktree, index), recomputed)

def ExactEdit (st : Worktree root × TaskIndex) (e : Edit root) : Prop :=
  Exact st.1 e.worktree e.changes

def KeptEdit (st : Worktree root × TaskIndex) (e : Edit root) : Prop :=
  Kept ignores parse st.1 e.worktree e.changes

instance (st : Worktree root × TaskIndex) (e : Edit root) : Decidable (ExactEdit st e) :=
  inferInstanceAs (Decidable (Exact _ _ _))

instance (st : Worktree root × TaskIndex) (e : Edit root) :
    Decidable (KeptEdit ignores parse st e) := inferInstanceAs (Decidable (Kept _ _ _ _ _))

theorem agrees_run (edits : List (Edit root)) : ∀ {st : Worktree root × TaskIndex},
    TaskIndex.Agrees ignores parse st.2 st.1 → st.1.Plain →
    Admits (refresh parse) ExactEdit st edits →
    Admits (refresh parse) (KeptEdit ignores parse) st edits →
    TaskIndex.Agrees ignores parse (run (refresh parse) st edits).2
        (run (refresh parse) st edits).1 ∧ (run (refresh parse) st edits).1.Plain := by
  induction edits with
  | nil => exact fun h hplain _ _ => ⟨h, hplain⟩
  | cons e edits ih =>
    intro st h hplain hexact hkept
    have hnext := TaskIndex.agrees_applyDelta h hplain hexact.1 hkept.1 e.newRevision
    exact ih hnext hkept.1.plain hexact.2 hkept.2

/-- After the edits, the refreshed index has the files and the import edges of one built
from the last worktree. -/
def SameAsBuilt (w : Worktree root) (revision : Nat) (edits : List (Edit root)) : Prop :=
  ∀ newRevision,
    let st := run (refresh parse) (w, TaskIndex.buildAt ignores parse w revision) edits
    let built := TaskIndex.buildAt ignores parse st.1 newRevision
    st.2.repo.files.keys = built.repo.files.keys ∧ st.2.deps = built.deps

/-- **The refreshed index is the rebuilt one** after any sequence of exact edits that are
kept. -/
theorem refreshed_eq_built (w : Worktree root) (revision : Nat) (edits : List (Edit root))
    (hplain : w.Plain)
    (hexact : Admits (refresh parse) ExactEdit
      (w, TaskIndex.buildAt ignores parse w revision) edits)
    (hkept : Admits (refresh parse) (KeptEdit ignores parse)
      (w, TaskIndex.buildAt ignores parse w revision) edits) :
    SameAsBuilt ignores parse w revision edits := by
  intro newRevision st built
  obtain ⟨hagrees, hplain'⟩ := agrees_run ignores parse edits
    (TaskIndex.agrees_buildAt hplain revision) hplain hexact hkept
  exact hagrees.eq (TaskIndex.agrees_buildAt hplain' newRevision)

end Edits

/-! ### Edits of a small worktree -/

/-- The bytes of `import './util'`. -/
def importUtil : List UInt8 :=
  [105, 109, 112, 111, 114, 116, 32, 39, 46, 47, 117, 116, 105, 108, 39]

/-- What the parser finds in files of which only this text has an import. -/
def parseImport (_ : Lang) (bytes : List UInt8) : List (String × DepKind) :=
  if bytes = importUtil then [("\x27./util\x27", .ts)] else []

def treeOf (files : List (FilePath × List UInt8)) : FileTree :=
  files.foldl (fun t f =>
    ((t.createDirAll f.1.dropLast).bind (·.write f.1 f.2)).getD t) .empty

def oneFile : Worktree ["ws"] where
  tree := treeOf [(["ws", "src", "main.ts"], importUtil)]
  dir := by decide +kernel
  names := by decide +kernel

def twoFiles : Worktree ["ws"] where
  tree := treeOf [(["ws", "src", "main.ts"], importUtil), (["ws", "src", "util.ts"], [10])]
  dir := by decide +kernel
  names := by decide +kernel

def threeFiles : Worktree ["ws"] where
  tree := treeOf [(["ws", "src", "main.ts"], importUtil), (["ws", "src", "util.ts"], [59, 10]),
    (["ws", "notes"], [10])]
  dir := by decide +kernel
  names := by decide +kernel

def generated : Worktree ["ws"] where
  tree := treeOf [(["ws", "src", "main.ts"], importUtil), (["ws", "target", "gen.ts"], [10])]
  dir := by decide +kernel
  names := by decide +kernel

theorem refreshed_eq_built_threeFiles :
    SameAsBuilt (fun _ => .none) parseImport twoFiles 1
      [⟨threeFiles, [⟨"notes", false⟩, ⟨"src/util.ts", false⟩], 2⟩,
       ⟨oneFile, [⟨"src/util.ts", true⟩, ⟨"notes", true⟩], 3⟩] :=
  refreshed_eq_built (fun _ => .none) parseImport twoFiles 1 _ (by decide +kernel)
    (by decide +kernel) (by decide +kernel)

/-- A file that is new under `target` is in the refreshed index and not in the rebuilt one;
and when the file that `src/main.ts` imports is new, the rebuilt index has the edge and the
refreshed one has not. -/
theorem refresh_differs :
    let edit : Edit ["ws"] := ⟨generated, [⟨"target/gen.ts", false⟩], 2⟩
    let edit' : Edit ["ws"] := ⟨twoFiles, [⟨"src/util.ts", false⟩], 2⟩
    (Exact oneFile generated edit.changes ∧
      ¬ SameAsBuilt (fun _ => .none) parseImport oneFile 1 [edit]) ∧
    (Exact oneFile twoFiles edit'.changes ∧
      ¬ SameAsBuilt (fun _ => .none) parseImport oneFile 1 [edit']) := by
  refine ⟨⟨by decide +kernel, fun h => ?_⟩, ⟨by decide +kernel, fun h => ?_⟩⟩
  · have hkeys := (h 2).1
    revert hkeys
    decide +kernel
  · have hkeys := congrArg (fun d => d.edges.keys) (h 2).2
    revert hkeys
    decide +kernel

end Retrieval

end Modbit
