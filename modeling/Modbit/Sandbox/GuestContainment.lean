import Modbit.Lib.Landing
import Modbit.Sandbox.GuestPaths

/-!
# Where allowed paths lead

An allowed path is resolved before it is compared with the roots.  What is not followed is a link
in place of the first name that could not be resolved: it is put back as any missing name, and
followed when the path is used.  Such a link dangles, or is one more than the operating system
follows.  Besides, an empty root admits every path, and for a root that is not there the
directories above it are made as well.

`paths_confined_iff`: what reading, listing, entering or writing touches is under a root exactly
when none of these ways is open (`LeadsOut`), for every tree, every list of roots and every path.
-/

namespace Modbit.Sandbox

open Lib List

section Locations

variable (t : FileTree) (cwd : FilePath) (fsRoots : List String)

/-- The location of a root, taken or vacant; of one whose parents are missing the location it would
have.  A path without components has none. -/
def grantedLocation (root : String) : Option FilePath :=
  if root = "" then none
  else
    match follow t cwd (parsePath root).absolute (parsePath root).parts with
    | some q => some q
    | none => (normalize [] (parsePath root).parts).bind (resolveFrom t cwd (parsePath root).absolute)

def Granted (q : FilePath) : Prop :=
  ∃ root ∈ fsRoots, ∃ location, grantedLocation t cwd root = some location ∧ location <+: q

/-- What an allowed path touches is under a root. -/
def Confined (raw : String) : Prop :=
  ∀ p, ensurePathAllowed t cwd fsRoots raw = .ok p → ∀ q, t.Touches p q → Granted t cwd fsRoots q

/-- The ways out of the roots. -/
inductive LeadsOut (raw : String) : Prop
  /-- The path is there, outside the roots, and one of them is empty. -/
  | there {names q : FilePath} (hpath : normalize [] (parsePath raw).parts = some names)
      (hq : canonicalizeFrom t cwd (parsePath raw).absolute names = some q)
      (hempty : "" ∈ fsRoots) (hout : ¬ Granted t cwd fsRoots q)
  /-- The first name that is not there is to be made outside the roots, and the text of one that
  is not there either admits the path. -/
  | made {d r anc : FilePath} {name root : String}
      (hpath : normalize [] (parsePath raw).parts = some (d ++ name :: r))
      (hanc : canonicalizeFrom t cwd (parsePath raw).absolute d = some anc)
      (hdir : t.node anc = some .dir) (hvacant : t.node (anc ++ [name]) = none)
      (hroot : root ∈ fsRoots) (hmissing : rootLocation t cwd root = none)
      (htext : startsWithText (anc ++ name :: r) root) (hout : ¬ Granted t cwd fsRoots (anc ++ [name]))
  /-- The first name that is not resolved is a link, in a place a root admits, and leads outside. -/
  | linked {d r anc l : FilePath} {name root : String} {target : LinkTarget}
      (hpath : normalize [] (parsePath raw).parts = some (d ++ name :: r))
      (hanc : canonicalizeFrom t cwd (parsePath raw).absolute d = some anc)
      (hfirst : canonicalizeFrom t cwd (parsePath raw).absolute (d ++ [name]) = none)
      (hlink : t.node (anc ++ [name]) = some (.link target))
      (hroot : root ∈ fsRoots) (hadmits : admits t cwd (anc ++ name :: r) root)
      (hlands : t.Lands (anc ++ name :: r) l) (hout : ¬ Granted t cwd fsRoots l)

end Locations

variable {t : FileTree} {cwd : FilePath} {fsRoots : List String} {raw root : String}
  {p q l d anc names : FilePath} {name : String} {absolute : Bool}

theorem Granted.mono (h : Granted t cwd fsRoots l) (hpre : l <+: q) : Granted t cwd fsRoots q := by
  obtain ⟨root, hroot, location, hlocation, hunder⟩ := h
  exact ⟨root, hroot, location, hlocation, hunder.trans hpre⟩

/-! ### What is resolved -/

/-- What is followed is followed from a directory. -/
theorem follow_eq {parts : List LinkPart} (h : follow t cwd absolute parts = some q) :
    ∃ start, t.node start = some .dir ∧
      ∀ parts, follow t cwd absolute parts = t.walk FileTree.maxLinks start parts := by
  rw [follow] at h
  split_ifs at h with habs hcwd
  · exact ⟨[], t.root, fun parts => by rw [follow, if_pos habs]⟩
  · exact ⟨cwd, hcwd, fun parts => by rw [follow, if_neg habs, if_pos hcwd]⟩

theorem canonicalizeFrom_eq_some : canonicalizeFrom t cwd absolute names = some q ↔
    (absolute = true ∨ names ≠ []) ∧ follow t cwd absolute (names.map .name) = some q ∧
      t.node q ≠ none := by
  rw [canonicalizeFrom, ← Option.isSome_iff_ne_none]
  cases absolute <;> by_cases hnames : names = [] <;> simp [hnames, Option.filter_eq_some_iff]

theorem node_of_canonicalizeFrom (h : canonicalizeFrom t cwd absolute names = some q) :
    ∃ n, t.node q = some n ∧ ∀ target, n ≠ .link target := by
  obtain ⟨-, hfollow, hsome⟩ := canonicalizeFrom_eq_some.mp h
  obtain ⟨n, hn⟩ := Option.ne_none_iff_exists'.mp hsome
  obtain ⟨start, hstart, hwalk⟩ := follow_eq hfollow
  rw [hwalk] at hfollow
  exact ⟨n, hn, fun target hl => FileTree.walk_notLink _ _ _ hstart hfollow target (hl ▸ hn)⟩

theorem canonicalizeFrom_of_append {r : List String}
    (h : canonicalizeFrom t cwd absolute (d ++ name :: r) ≠ none) :
    canonicalizeFrom t cwd absolute (d ++ [name]) ≠ none := by
  induction r using List.reverseRecOn with
  | nil => exact h
  | append_singleton r x ih =>
    refine ih ?_
    obtain ⟨q, hq⟩ := Option.ne_none_iff_exists'.mp h
    obtain ⟨-, hfollow, -⟩ := canonicalizeFrom_eq_some.mp hq
    obtain ⟨start, hstart, hwalk⟩ := follow_eq hfollow
    rw [hwalk, ← cons_append, ← append_assoc, map_append] at hfollow
    obtain ⟨e, he, hdir⟩ := FileTree.walk_of_snoc _ _ _ hstart hfollow
    rw [canonicalizeFrom_eq_some.mpr ⟨Or.inr (by simp), (hwalk _).trans he,
      hdir ▸ Option.some_ne_none _⟩]
    exact Option.some_ne_none _

/-- The name behind a directory leads to its entry, if this is no link. -/
theorem canonicalizeFrom_snoc (hanc : canonicalizeFrom t cwd absolute d = some anc)
    (hdir : t.node anc = some .dir) (hlink : t.NotLink (anc ++ [name])) :
    canonicalizeFrom t cwd absolute (d ++ [name]) = none ↔ t.node (anc ++ [name]) = none := by
  obtain ⟨-, hfollow, -⟩ := canonicalizeFrom_eq_some.mp hanc
  obtain ⟨start, -, hwalk⟩ := follow_eq hfollow
  rw [hwalk] at hfollow
  have hnext : follow t cwd absolute ((d ++ [name]).map .name) = some (anc ++ [name]) := by
    rw [hwalk, map_append]
    exact FileTree.walk_snoc hdir hlink _ _ _ hfollow
  rw [canonicalizeFrom, if_neg (fun h => by simp at h), hnext, Option.filter_some]
  cases t.node (anc ++ [name]) <;> simp

theorem reattach_eq_some {canonical : FilePath → Option FilePath} :
    ∀ {up tail : List String}, canonical up.reverse = none → reattach canonical up tail = some p →
      ∃ d name r anc, up.reverse = d ++ name :: r ∧ canonical d = some anc ∧
        canonical (d ++ [name]) = none ∧ p = anc ++ name :: (r ++ tail)
  | [], tail, _, h => by cases h
  | name :: up, tail, hnone, h => by
    rw [reverse_cons] at hnone ⊢
    rw [reattach] at h
    cases hup : canonical up.reverse with
    | some anc =>
      rw [hup] at h
      exact ⟨up.reverse, name, [], anc, rfl, hup, hnone, (Option.some.inj h).symm⟩
    | none =>
      rw [hup] at h
      obtain ⟨d, first, r, anc, hsplit, hanc, hfirst, rfl⟩ := reattach_eq_some hup h
      exact ⟨d, first, r ++ [name], anc, by rw [hsplit, append_assoc, cons_append], hanc,
        hfirst, by rw [append_assoc, singleton_append]⟩

theorem resolveFrom_eq_some (h : resolveFrom t cwd absolute names = some p) :
    canonicalizeFrom t cwd absolute names = some p ∨
      ∃ d name r anc, names = d ++ name :: r ∧ canonicalizeFrom t cwd absolute d = some anc ∧
        canonicalizeFrom t cwd absolute (d ++ [name]) = none ∧ p = anc ++ name :: r := by
  rw [resolveFrom] at h
  cases hself : canonicalizeFrom t cwd absolute names with
  | some q =>
    rw [hself] at h
    exact Or.inl h
  | none =>
    rw [hself] at h
    obtain ⟨d, name, r, anc, hsplit, hanc, hfirst, rfl⟩ :=
      reattach_eq_some (by rw [reverse_reverse]; exact hself) h
    rw [reverse_reverse] at hsplit
    rw [append_nil]
    exact Or.inr ⟨d, name, r, anc, hsplit, hanc, hfirst, rfl⟩

/-- Behind the last directory that is there the missing names are put back. -/
theorem resolveFrom_of_split (hanc : canonicalizeFrom t cwd absolute d = some anc)
    (hfirst : canonicalizeFrom t cwd absolute (d ++ [name]) = none) (r : List String) :
    resolveFrom t cwd absolute (d ++ name :: r) = some (anc ++ name :: r) := by
  have hnone : ∀ r, canonicalizeFrom t cwd absolute (d ++ name :: r) = none := fun r => by
    by_contra hsome
    exact canonicalizeFrom_of_append hsome hfirst
  have hloop : ∀ r tail, reattach (canonicalizeFrom t cwd absolute) (d ++ name :: r).reverse tail =
      some (anc ++ name :: (r ++ tail)) := by
    intro r
    induction r using List.reverseRecOn with
    | nil =>
      intro tail
      rw [reverse_append, reverse_singleton, singleton_append, reattach,
        reverse_reverse, hanc, nil_append]
    | append_singleton r x ih =>
      intro tail
      have hsplit : d ++ name :: (r ++ [x]) = d ++ name :: r ++ [x] := by
        rw [append_assoc, cons_append]
      rw [hsplit, reverse_append, reverse_singleton, singleton_append, reattach,
        reverse_reverse, hnone r]
      rw [ih (x :: tail), append_assoc, singleton_append]
  rw [resolveFrom, hnone r]
  rw [hloop r [], append_nil]

theorem node_of_unresolved (hanc : canonicalizeFrom t cwd absolute d = some anc)
    (hnone : canonicalizeFrom t cwd absolute (d ++ [name]) = none) :
    t.node (anc ++ [name]) = none ∨ ∃ target, t.node (anc ++ [name]) = some (.link target) := by
  by_cases hlink : ∃ target, t.node (anc ++ [name]) = some (.link target)
  · exact Or.inr hlink
  refine Or.inl ?_
  by_contra hsome
  exact hsome ((canonicalizeFrom_snoc hanc (t.below anc name hsome)
    (fun target hl => hlink ⟨target, hl⟩)).mp hnone)

/-! ### What the roots admit -/

theorem grantedLocation_of_root {location : FilePath} (h : rootLocation t cwd root = some location) :
    grantedLocation t cwd root = some location ∧ t.node location ≠ none := by
  rw [rootLocation] at h
  split_ifs at h with hempty hdir
  · obtain ⟨hfollow, hthere⟩ := Option.filter_eq_some_iff.mp h
    refine ⟨by rw [grantedLocation, if_neg hempty, hfollow], ?_⟩
    rw [of_decide_eq_true hthere]
    exact Option.some_ne_none _
  · obtain ⟨hfollow, hthere⟩ := Option.filter_eq_some_iff.mp h
    exact ⟨by rw [grantedLocation, if_neg hempty, hfollow], Option.isSome_iff_ne_none.mp hthere⟩

theorem names_of_startsWithText (hempty : root ≠ "") (h : startsWithText p root) :
    (parsePath root).absolute = true ∧
      ∃ names, (parsePath root).parts = names.map .name ∧ names <+: p := by
  rcases h with h | ⟨habs, hpre⟩
  · exact absurd h hempty
  · obtain ⟨names, hnames, hparts⟩ := prefix_map_iff.mp hpre
    exact ⟨habs, names, hparts, hnames⟩

/-- A root by its text whose location is there, or is vacant in a directory, is granted where its
text says. -/
theorem grantedLocation_of_place (hempty : root ≠ "") (habs : (parsePath root).absolute = true)
    (hparts : (parsePath root).parts = names.map .name) (hplace : t.place names = some names) :
    grantedLocation t cwd root = some names := by
  rw [grantedLocation, if_neg hempty, hparts, follow, if_pos habs]
  have hwalk : t.walk FileTree.maxLinks [] (names.map .name) = some names := hplace
  rw [hwalk]

/-! ### Containment -/

theorem place_of_initial {n : FileNode} (hn : t.node p = some n) (hlink : ∀ target, n ≠ .link target)
    (hpre : names <+: p) : t.place names = some names := by
  obtain ⟨r, rfl⟩ := hpre
  by_cases hr : r = []
  · subst hr
    rw [append_nil] at hn
    exact FileTree.place_of_node hn hlink
  · exact FileTree.place_of_node (FileTree.dir_of_node hr (hn ▸ Option.some_ne_none _))
      (fun target hl => by cases hl)

/-- An allowed path lands under the roots or leads out in one of the three ways. -/
theorem granted_or_leads (hp : ensurePathAllowed t cwd fsRoots raw = .ok p) (hl : t.Lands p l) :
    Granted t cwd fsRoots l ∨ LeadsOut t cwd fsRoots raw := by
  refine or_iff_not_imp_left.mpr (fun hout => ?_)
  obtain ⟨names, hnames, hres, root, hroot, hadmits⟩ := ensurePathAllowed_eq_ok.mp hp
  rcases resolveFrom_eq_some hres with hself | ⟨d, name, r, anc, rfl, hanc, hfirst, rfl⟩
  · -- The path is there.
    obtain ⟨n, hn, hlink⟩ := node_of_canonicalizeFrom hself
    obtain rfl := FileTree.eq_of_lands_node hn hlink hl
    by_cases hempty : root = ""
    · exact .there hnames hself (hempty ▸ hroot) hout
    refine absurd ⟨root, hroot, ?_⟩ hout
    rw [admits] at hadmits
    split at hadmits
    · next location hlocation => exact ⟨location, (grantedLocation_of_root hlocation).1, hadmits⟩
    · obtain ⟨habs, text, hparts, hpre⟩ := names_of_startsWithText hempty hadmits
      exact ⟨text, grantedLocation_of_place hempty habs hparts (place_of_initial hn hlink hpre), hpre⟩
  · rcases node_of_unresolved hanc hfirst with hnone | ⟨target, htarget⟩
    · obtain ⟨n, hn, hlink⟩ := node_of_canonicalizeFrom hanc
      obtain ⟨rfl, hdir⟩ := FileTree.eq_of_lands_vacant hn hlink hnone hl
      rw [admits] at hadmits
      split at hadmits
      · next location hlocation =>
        -- A root that is there is not below the vacant entry.
        obtain ⟨hgranted, hthere⟩ := grantedLocation_of_root hlocation
        refine absurd ⟨root, hroot, location, hgranted, ?_⟩ hout
        rcases prefix_or_prefix_of_prefix hadmits (FileTree.prefix_chain anc name r) with
          hpre | ⟨r', rfl⟩
        · exact hpre
        · by_cases hr : r' = []
          · rw [hr, append_nil] at hthere
            exact absurd hnone hthere
          · rw [FileTree.dir_of_node hr hthere] at hnone
            cases hnone
      · next hmissing => exact .made hnames hanc hdir hnone hroot hmissing hadmits hout
    · exact .linked hnames hanc hfirst htarget hroot hadmits hl hout

/-- A path that leads out is allowed, and lands outside. -/
theorem LeadsOut.lands (h : LeadsOut t cwd fsRoots raw) :
    ∃ p l, ensurePathAllowed t cwd fsRoots raw = .ok p ∧ t.Lands p l ∧ ¬ Granted t cwd fsRoots l := by
  cases h with
  | @there names q hpath hq hempty hout =>
    obtain ⟨n, hn, hlink⟩ := node_of_canonicalizeFrom hq
    refine ⟨q, q, ensurePathAllowed_eq_ok.mpr ⟨names, hpath, by rw [resolveFrom, hq], "", hempty, ?_⟩,
      Or.inl (FileTree.place_of_node hn hlink), hout⟩
    rw [admits, rootLocation, if_pos rfl]
    exact Or.inl rfl
  | @made d r anc name root hpath hanc hdir hvacant hroot hmissing htext hout =>
    have hfirst := (canonicalizeFrom_snoc hanc hdir
      (fun target hl => by rw [hvacant] at hl; cases hl)).mpr hvacant
    refine ⟨anc ++ name :: r, anc ++ [name], ensurePathAllowed_eq_ok.mpr
      ⟨_, hpath, resolveFrom_of_split hanc hfirst r, root, hroot, ?_⟩, ?_, hout⟩
    · rw [admits, hmissing]
      exact htext
    · have hplace := FileTree.place_of_node hdir (fun target hl => by cases hl)
      cases r with
      | nil => exact Or.inl (FileTree.place_snoc hplace hdir
          (fun target hl => by rw [hvacant] at hl; cases hl))
      | cons y r => exact Or.inr ⟨anc, name, y, r, anc, rfl,
          FileTree.canonicalize_eq_some.mpr ⟨hplace, hdir ▸ Option.some_ne_none _⟩, hdir, hvacant, rfl⟩
  | @linked d r anc l name root target hpath hanc hfirst hlink hroot hadmits hlands hout =>
    exact ⟨_, l, ensurePathAllowed_eq_ok.mpr
      ⟨_, hpath, resolveFrom_of_split hanc hfirst r, root, hroot, hadmits⟩, hlands, hout⟩

/-- **What is done at an allowed path stays under the roots exactly when the path does not lead out
in one of the three ways.** -/
theorem paths_confined_iff (t : FileTree) (cwd : FilePath) (fsRoots : List String) (raw : String) :
    Confined t cwd fsRoots raw ↔ ¬ LeadsOut t cwd fsRoots raw := by
  constructor
  · intro h hleads
    obtain ⟨p, l, hp, hl, hout⟩ := hleads.lands
    exact hout (h p hp l (FileTree.touches_of_lands hl))
  · intro h p hp q hq
    obtain ⟨l, hl, hpre⟩ := FileTree.lands_of_touches hq
    exact ((granted_or_leads hp hl).resolve_right h).mono hpre

/-! ### Links out of a root -/

def symlinkAt (t : FileTree) (target : LinkTarget) (p : FilePath) : FileTree :=
  if h : t.Slot p ∧ t.node p = none then t.update p (some (.link target)) (.of_vacant h) else t

/-- A root `/w` with a link to `/secret`, where there is nothing. -/
def danglingTree : FileTree :=
  symlinkAt ((FileTree.empty.createDirAll ["w"]).getD .empty) ⟨true, [.name "secret"]⟩ ["w", "out"]

/-- The same with a file at `/secret`, and a link in the root to the root itself. -/
def loopTree : FileTree :=
  symlinkAt ((danglingTree.write ["secret"] [1]).getD .empty) ⟨false, []⟩ ["w", "a"]

/-- A path that goes through as many links as are followed, and then through the link out. -/
def longPath : String := "/w" ++ String.join (List.replicate 40 "/a") ++ "/out"

/-- Through the dangling link a file is created outside the root; and behind enough links the link
out is not followed in the check, and what it leads to is read. -/
theorem leads_out_of_root :
    ensurePathAllowed danglingTree [] ["/w"] "/w/out" = .ok ["w", "out"] ∧
      (danglingTree.writeMaking ["w", "out"] [1]).1.node ["secret"] = some (.file [1]) ∧
      ¬ Confined danglingTree [] ["/w"] "/w/out" ∧
      ensurePathAllowed loopTree [] ["/w"] longPath = .ok ["w", "out"] ∧
      loopTree.read ["w", "out"] = some [1] ∧ ¬ Confined loopTree [] ["/w"] longPath := by
  have hallowed : ensurePathAllowed danglingTree [] ["/w"] "/w/out" = .ok ["w", "out"] := by
    decide +kernel
  have hcreated : (danglingTree.writeMaking ["w", "out"] [1]).1.node ["secret"] = some (.file [1]) := by
    decide +kernel
  have hlong : ensurePathAllowed loopTree [] ["/w"] longPath = .ok ["w", "out"] := by decide +kernel
  have hread : loopTree.canonicalize ["w", "out"] = some ["secret"] := by decide +kernel
  -- Under the root `/w` there is no `/secret`.
  have hout : ∀ t : FileTree, grantedLocation t [] "/w" = some ["w"] →
      ¬ Granted t [] ["/w"] ["secret"] := by
    rintro t hw ⟨root, hroot, location, hlocation, hpre⟩
    obtain rfl := mem_singleton.mp hroot
    rw [hw] at hlocation
    obtain rfl := Option.some.inj hlocation
    exact absurd hpre (by decide)
  refine ⟨hallowed, hcreated, fun h => ?_, hlong, by decide +kernel, fun h => ?_⟩
  · refine hout danglingTree (by decide +kernel) (h _ hallowed _ (Or.inr ⟨[1], ?_⟩))
    rw [hcreated]
    have hvacant : danglingTree.node ["secret"] = none := by decide +kernel
    rw [hvacant]
    exact Option.some_ne_none _
  · exact hout loopTree (by decide +kernel) (h _ hlong _ (Or.inl hread))

end Modbit.Sandbox
