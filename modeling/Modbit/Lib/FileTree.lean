import Modbit.Lib.OrdMap
import Modbit.Lib.Path
import Mathlib.Data.List.Induction
import Mathlib.Data.List.Infix
import Mathlib.Data.List.Lex
import Mathlib.Data.String.Basic

/-!
# File trees with symbolic links

A tree has a node at each of its paths, a file, a directory or a symbolic link, and what
is in something is in a directory.  `place` follows a path through the links to the
location it names, which may be vacant; `canonicalize` is the same for a location that is
not.  `write` goes through links, `removeFile` and `rename` work on the last entry of a
path itself, and `none` is an error of the operating system.

`place_of_plain` says that a path without links names itself, and `place_of_keeps` that a
path goes on naming the same location as long as directories and links stay what they are.
-/

namespace Modbit.Lib

open List

inductive LinkPart where
  | up
  | name (s : String)
  deriving DecidableEq

structure LinkTarget where
  absolute : Bool
  parts : List LinkPart
  deriving DecidableEq

inductive FileNode where
  | file (bytes : List UInt8)
  | dir
  | link (target : LinkTarget)
  deriving DecidableEq

structure FileTree where
  nodes : OrdMap FilePath FileNode
  root : nodes.find? [] = some .dir
  below : ∀ p s, nodes.find? (p ++ [s]) ≠ none → nodes.find? p = some .dir

namespace FileTree

def node (t : FileTree) (p : FilePath) : Option FileNode := t.nodes.find? p

def empty : FileTree where
  nodes := .ofList [([], .dir)]
  root := rfl
  below := by
    intro p s h
    have hnone : (OrdMap.ofList [([], FileNode.dir)]).find? (p ++ [s]) = none := by
      show ((OrdMap.empty : OrdMap FilePath FileNode).insert [] .dir).find? _ = none
      rw [OrdMap.find?_insert, if_neg (by simp)]
      rfl
    exact absurd hnone h

variable {t : FileTree} {p r : FilePath}

theorem dir_of_node (hr : r ≠ []) (h : t.node (p ++ r) ≠ none) : t.node p = some .dir := by
  induction r using List.reverseRecOn with
  | nil => exact absurd rfl hr
  | append_singleton r s ih =>
    rw [← append_assoc] at h
    have hdir : t.node (p ++ r) = some .dir := t.below _ s h
    by_cases hr' : r = []
    · subst hr'
      rw [append_nil] at hdir
      exact hdir
    · exact ih hr' (by rw [hdir]; exact Option.some_ne_none _)

theorem parent_of_node (h : t.node p ≠ none) : p = [] ∨ t.node p.dropLast = some .dir := by
  by_cases hroot : p = []
  · exact Or.inl hroot
  · refine Or.inr (t.below p.dropLast (p.getLast hroot) ?_)
    rw [dropLast_append_getLast hroot]
    exact h

/-! ### Paths -/

def walkWith (t : FileTree) (follow : FilePath → LinkTarget → List LinkPart → Option FilePath) :
    FilePath → List LinkPart → Option FilePath
  | here, [] => some here
  | here, .up :: rest => t.walkWith follow here.dropLast rest
  | here, .name s :: rest =>
    match t.node (here ++ [s]) with
    | some (.link target) => follow here target rest
    | some .dir => t.walkWith follow (here ++ [s]) rest
    | some (.file _) | none => if rest = [] then some (here ++ [s]) else none

/-- The way through a tree and at most so many links. -/
def walk (t : FileTree) : Nat → FilePath → List LinkPart → Option FilePath
  | 0 => t.walkWith (fun _ _ _ => none)
  | n + 1 => t.walkWith (fun here target rest =>
      t.walk n (if target.absolute then [] else here) (target.parts ++ rest))

def maxLinks : Nat := 40

def place (t : FileTree) (p : FilePath) : Option FilePath := t.walk maxLinks [] (p.map .name)

def canonicalize (t : FileTree) (p : FilePath) : Option FilePath :=
  (t.place p).filter (fun q => (t.node q).isSome)

/-- `Path::exists`. -/
def has (t : FileTree) (p : FilePath) : Bool := (t.canonicalize p).isSome

/-- `fs::read`. -/
def read (t : FileTree) (p : FilePath) : Option (List UInt8) :=
  match (t.canonicalize p).bind t.node with
  | some (.file bytes) => some bytes
  | _ => none

def fileAt (t : FileTree) (p : FilePath) : Option (List UInt8) :=
  match t.node p with
  | some (.file bytes) => some bytes
  | _ => none

/-- The entry a path ends in, its last name not followed. -/
def entry (t : FileTree) (p : FilePath) : Option FilePath :=
  match p.getLast? with
  | none => none
  | some name => ((t.place p.dropLast).filter (fun d => t.node d = some .dir)).map (· ++ [name])

/-! ### Changes -/

/-- An entry that may be set: it is in a directory and is none itself. -/
def Slot (t : FileTree) (p : FilePath) : Prop :=
  p ≠ [] ∧ t.node p.dropLast = some .dir ∧ t.node p ≠ some .dir

instance (t : FileTree) (p : FilePath) : Decidable (t.Slot p) := inferInstanceAs (Decidable (_ ∧ _))

def update (t : FileTree) (p : FilePath) (n : Option FileNode) (h : t.Slot p) : FileTree where
  nodes := t.nodes.put p n
  root := by
    rw [OrdMap.find?_put, if_neg (Ne.symm h.1)]
    exact t.root
  below := by
    intro q s hq
    rw [OrdMap.find?_put] at hq ⊢
    have hself : q ++ [s] = p → q = p.dropLast := fun he => by rw [← he, List.dropLast_concat]
    split_ifs at hq with he
    · rw [hself he, if_neg, ← h.2.1]
      · rfl
      · intro hdrop
        have hlen := congrArg List.length hdrop
        rw [List.length_dropLast] at hlen
        have := List.length_pos_of_ne_nil h.1
        omega
    · have hdir := t.below q s hq
      rw [if_neg]
      · exact hdir
      · rintro rfl
        exact h.2.2 hdir

theorem node_update {n : Option FileNode} (h : t.Slot p)
    (q : FilePath) : (t.update p n h).node q = if q = p then n else t.node q := by
  show (t.nodes.put p n).find? q = _
  rw [OrdMap.find?_put]
  split_ifs
  · rfl
  · rfl

/-- `fs::write`: links are followed, also to a vacant location. -/
def write (t : FileTree) (p : FilePath) (bytes : List UInt8) : Option FileTree :=
  match t.place p with
  | none => none
  | some q => if h : t.Slot q then some (t.update q (some (.file bytes)) h) else none

theorem Slot.of_vacant (h : t.Slot p ∧ t.node p = none) : t.Slot p := h.1

/-- `fs::create_dir`. -/
def mkdir (t : FileTree) (p : FilePath) : Option FileTree :=
  match t.entry p with
  | none => none
  | some q =>
    if h : t.Slot q ∧ t.node q = none then some (t.update q (some .dir) h.1) else none

/-- `fs::create_dir_all`, from the outermost directory in. -/
def createDirAll (t : FileTree) (p : FilePath) : Option FileTree :=
  p.inits.foldlM (fun t d =>
    if (t.canonicalize d).bind t.node = some .dir then some t else t.mkdir d) t

/-- `fs::remove_file`. -/
def removeFile (t : FileTree) (p : FilePath) : Option FileTree :=
  match t.entry p with
  | none => none
  | some q => if h : t.Slot q ∧ t.node q ≠ none then some (t.update q none h.1) else none

/-- A directory that may be moved to an entry: not into itself, and only onto nothing or an
empty directory. -/
def Movable (t : FileTree) (source target : FilePath) : Prop :=
  t.node source = some .dir ∧ target ≠ [] ∧ t.node target.dropLast = some .dir ∧
    ¬ source <+: target ∧ (t.node target = none ∨ t.node target = some .dir) ∧
    ∀ k ∈ t.nodes.keys, target <+: k → k = target

instance (t : FileTree) (source target : FilePath) : Decidable (t.Movable source target) :=
  inferInstanceAs (Decidable (_ ∧ _))

def rehang (t : FileTree) (source target : FilePath) : OrdMap FilePath FileNode :=
  (t.nodes.eraseAll (t.nodes.keys.filter (fun k => source <+: k))).insertAll
    ((t.nodes.entries.filter (fun e => source <+: e.1)).map
      (fun e => (target ++ e.1.drop source.length, e.2)))

variable {source target : FilePath}

theorem find?_rehang (h : t.Movable source target) (q : FilePath) : (t.rehang source target).find? q
      = if target <+: q then t.node (source ++ q.drop target.length)
        else if source <+: q then none else t.node q := by
  obtain ⟨hsource, -, -, hinto, hfree, hempty⟩ := h
  have hmem : ∀ r n, (target ++ r, n) ∈ ((t.nodes.entries.filter (fun e => source <+: e.1)).map
      (fun e => (target ++ e.1.drop source.length, e.2))).reverse ↔
      t.node (source ++ r) = some n := by
    intro r n
    rw [mem_reverse, mem_map]
    constructor
    · rintro ⟨e, he, heq⟩
      obtain ⟨hent, hpre⟩ := mem_filter.mp he
      obtain ⟨r', hr'⟩ := of_decide_eq_true hpre
      obtain ⟨hkey, hval⟩ := Prod.mk.inj heq
      rw [← hr', drop_left] at hkey
      rw [← append_cancel_left hkey, hr', ← hval]
      exact OrdMap.mem_entries.mp hent
    · intro hn
      refine ⟨(source ++ r, n), mem_filter.mpr ⟨OrdMap.mem_entries.mpr hn, ?_⟩, ?_⟩
      · exact decide_eq_true (prefix_append _ _)
      · rw [drop_left]
  rw [rehang, OrdMap.find?_insertAll]
  by_cases htarget : target <+: q
  · obtain ⟨r, rfl⟩ := htarget
    rw [if_pos (prefix_append _ _), drop_left]
    cases hn : t.node (source ++ r) with
    | some n =>
      rw [OrdMap.lookup_of_unique ((hmem r n).mpr hn) (fun w hw => ?_)]
      · rfl
      · have := (hmem r w).mp hw
        rw [hn] at this
        exact (Option.some.inj this).symm
    | none =>
      rw [OrdMap.lookup_eq_none, Option.none_or, OrdMap.find?_eraseAll]
      · -- nothing was there: the target is vacant or an empty directory
        have hr : r ≠ [] := by
          rintro rfl
          rw [append_nil, hsource] at hn
          cases hn
        have hnone : t.node (target ++ r) = none := by
          by_contra hsome
          obtain ⟨n, hn'⟩ := Option.ne_none_iff_exists'.mp hsome
          have heq := hempty _ (OrdMap.mem_keys.mpr ⟨n, hn'⟩) (prefix_append _ _)
          exact hr (append_right_eq_self.mp heq)
        split_ifs
        · rfl
        · exact hnone
      · intro e he hkey
        have := (hmem r e.2).mp (by rw [← hkey, Prod.eta]; exact he)
        rw [hn] at this
        cases this
  · rw [if_neg htarget, OrdMap.lookup_eq_none, Option.none_or, OrdMap.find?_eraseAll]
    · by_cases hsrc : source <+: q
      · rw [if_pos hsrc]
        by_cases hkey : q ∈ t.nodes.keys
        · rw [if_pos (mem_filter.mpr ⟨hkey, decide_eq_true hsrc⟩)]
        · have hnone : t.nodes.find? q = none := by
            by_contra hsome
            exact hkey (OrdMap.mem_keys.mpr (Option.ne_none_iff_exists'.mp hsome))
          rw [hnone, ite_self]
      · rw [if_neg hsrc, if_neg]
        · rfl
        · intro hkey
          exact hsrc (of_decide_eq_true (mem_filter.mp hkey).2)
    · intro e he hkey
      obtain ⟨e', -, heq⟩ := mem_map.mp (mem_reverse.mp he)
      refine htarget ⟨e'.1.drop source.length, ?_⟩
      rw [← hkey, ← heq]

def moveDir (t : FileTree) (source target : FilePath) (h : t.Movable source target) : FileTree where
  nodes := t.rehang source target
  root := by
    have hroot : source ≠ [] := fun h0 => h.2.2.2.1 (h0 ▸ List.nil_prefix)
    rw [find?_rehang h, if_neg (fun hp => h.2.1 (List.prefix_nil.mp hp)),
      if_neg (fun hp => hroot (List.prefix_nil.mp hp))]
    exact t.root
  below := by
    intro q s hq
    obtain ⟨hsource, hne, hparent, hinto, -, -⟩ := id h
    rw [find?_rehang h] at hq ⊢
    by_cases hin : target <+: q
    · obtain ⟨r, rfl⟩ := hin
      rw [if_pos (by rw [List.append_assoc]; exact List.prefix_append _ _), List.append_assoc,
        List.drop_left, ← List.append_assoc] at hq
      rw [if_pos (List.prefix_append _ _), List.drop_left]
      exact t.below _ s hq
    rw [if_neg hin]
    by_cases hat : target <+: q ++ [s]
    · -- the new place itself
      have htarget : target = q ++ [s] := by
        rcases List.prefix_concat_iff.mp hat with h | h
        · exact h
        · exact absurd h hin
      rw [htarget, List.dropLast_concat] at hparent
      rw [if_neg]
      · exact hparent
      · intro hsrc
        exact hinto (htarget ▸ hsrc.trans (List.prefix_append _ _))
    · rw [if_neg hat] at hq
      split_ifs at hq with hsrc
      · exact absurd rfl hq
      · rw [if_neg (fun hp => hsrc (hp.trans (List.prefix_append _ _)))]
        exact t.below q s hq

/-- `fs::rename`. -/
def rename (t : FileTree) (source target : FilePath) : Option FileTree :=
  match t.entry source, t.entry target with
  | some s, some d =>
    if s = d then if t.node s = none then none else some t
    else if h : t.Movable s d then some (t.moveDir s d h)
    else if h : t.Slot s ∧ t.node s ≠ none ∧ t.Slot d then
      let moved := t.update d (t.node s) h.2.2
      if h' : moved.Slot s then some (moved.update s none h') else none
    else none
  | _, _ => none

/-! ### Where paths lead -/

def NotLink (t : FileTree) (p : FilePath) : Prop := ∀ target, t.node p ≠ some (.link target)

variable {t t' : FileTree} {p q d : FilePath}

theorem walk_nil (n : Nat) (here : FilePath) : t.walk n here [] = some here := by
  cases n with
  | zero => rfl
  | succ n => rfl

theorem walk_up (n : Nat) (here : FilePath) (rest : List LinkPart) :
    t.walk n here (.up :: rest) = t.walk n here.dropLast rest := by
  cases n with
  | zero => rfl
  | succ n => rfl

variable {n : Nat} {here : FilePath} {s : String} {rest : List LinkPart}

theorem walk_dir (h : t.node (here ++ [s]) = some .dir) :
    t.walk n here (.name s :: rest) = t.walk n (here ++ [s]) rest := by
  cases n with
  | zero => rw [walk, walkWith, h]
  | succ n => rw [walk, walkWith, h]

theorem walk_end (hdir : t.node (here ++ [s]) ≠ some .dir) (hlink : t.NotLink (here ++ [s])) :
    t.walk n here (.name s :: rest) = if rest = [] then some (here ++ [s]) else none := by
  have hcase : ∀ follow, t.walkWith follow here (.name s :: rest)
      = if rest = [] then some (here ++ [s]) else none := by
    intro follow
    rw [walkWith]
    cases hn : t.node (here ++ [s]) with
    | none => rfl
    | some n =>
      cases n with
      | file bytes => rfl
      | dir => exact absurd hn hdir
      | link target => exact absurd hn (hlink target)
  cases n with
  | zero => exact hcase _
  | succ n => exact hcase _

theorem walk_link {target : LinkTarget} (h : t.node (here ++ [s]) = some (.link target)) :
    t.walk (n + 1) here (.name s :: rest)
      = t.walk n (if target.absolute then [] else here) (target.parts ++ rest) := by
  rw [walk, walkWith, h]

theorem walk_link_zero {target : LinkTarget} (h : t.node (here ++ [s]) = some (.link target)) :
    t.walk 0 here (.name s :: rest) = none := by
  rw [walk, walkWith, h]

theorem node_cases (t : FileTree) (p : FilePath) :
    t.node p = some .dir ∨ (∃ target, t.node p = some (.link target)) ∨
      (t.node p ≠ some .dir ∧ t.NotLink p) := by
  by_cases hdir : t.node p = some .dir
  · exact Or.inl hdir
  · by_cases hlink : ∃ target, t.node p = some (.link target)
    · exact Or.inr (Or.inl hlink)
    · exact Or.inr (Or.inr ⟨hdir, fun target h => hlink ⟨target, h⟩⟩)

/-- **The ways of a walk.** -/
theorem walk_induction (t : FileTree) {P : Nat → FilePath → List LinkPart → Prop}
    (nil : ∀ n here, P n here [])
    (up : ∀ n here rest, P n here.dropLast rest → P n here (.up :: rest))
    (dir : ∀ n here s rest, t.node (here ++ [s]) = some .dir → P n (here ++ [s]) rest →
      P n here (.name s :: rest))
    (link : ∀ n here s rest target, t.node (here ++ [s]) = some (.link target) →
      P n (if target.absolute then [] else here) (target.parts ++ rest) →
      P (n + 1) here (.name s :: rest))
    (loop : ∀ here s rest target, t.node (here ++ [s]) = some (.link target) →
      P 0 here (.name s :: rest))
    (last : ∀ n here s rest, t.node (here ++ [s]) ≠ some .dir → t.NotLink (here ++ [s]) →
      P n here (.name s :: rest))
    (n : Nat) (here : FilePath) (parts : List LinkPart) : P n here parts := by
  -- a link costs one of `n`, and every other part is one less
  induction n generalizing here parts with
  | zero =>
    induction parts generalizing here with
    | nil => exact nil 0 here
    | cons part rest ih =>
      cases part with
      | up => exact up 0 here rest (ih _)
      | name s =>
        rcases t.node_cases (here ++ [s]) with hdir | ⟨target, hl⟩ | ⟨hdir, hnl⟩
        · exact dir 0 here s rest hdir (ih _)
        · exact loop here s rest target hl
        · exact last 0 here s rest hdir hnl
  | succ n ihn =>
    induction parts generalizing here with
    | nil => exact nil _ here
    | cons part rest ih =>
      cases part with
      | up => exact up _ here rest (ih _)
      | name s =>
        rcases t.node_cases (here ++ [s]) with hdir | ⟨target, hl⟩ | ⟨hdir, hnl⟩
        · exact dir _ here s rest hdir (ih _)
        · exact link n here s rest target hl (ihn _ _)
        · exact last _ here s rest hdir hnl

theorem dir_dropLast (h : t.node here = some .dir) : t.node here.dropLast = some .dir := by
  rcases parent_of_node (h ▸ Option.some_ne_none _) with h0 | hdir
  · rw [h0]
    exact t.root
  · exact hdir

theorem dir_start (h : t.node here = some .dir) (absolute : Bool) :
    t.node (if absolute then [] else here) = some .dir := by
  split_ifs
  · exact t.root
  · exact h

theorem walk_plain (names : List String) : ∀ here : FilePath,
    (∀ a s, names = a ++ [s] → t.node (here ++ a) = some .dir) →
    t.NotLink (here ++ names) ∨ names = [] →
    t.walk n here (names.map .name) = some (here ++ names) := by
  induction names with
  | nil =>
    intro here _ _
    rw [map_nil, walk_nil, append_nil]
  | cons s names ih =>
    intro here hparent hlink
    have hcons : here ++ s :: names = here ++ [s] ++ names := by
      rw [append_assoc, singleton_append]
    rw [map_cons]
    by_cases hnil : names = []
    · subst hnil
      have hnot : t.NotLink (here ++ [s]) := hlink.resolve_right (cons_ne_nil _ _)
      rcases t.node_cases (here ++ [s]) with hdir | ⟨target, hl⟩ | ⟨hdir, hnl⟩
      · rw [walk_dir hdir, map_nil, walk_nil]
      · exact absurd hl (hnot target)
      · rw [walk_end hdir hnl, map_nil, if_pos rfl]
    · have hdir : t.node (here ++ [s]) = some .dir := by
        obtain ⟨a, l, rfl⟩ : ∃ a l, names = a ++ [l] :=
          ⟨_, _, (dropLast_append_getLast hnil).symm⟩
        have hfull := hparent (s :: a) l rfl
        rw [show here ++ s :: a = here ++ [s] ++ a by simp] at hfull
        by_cases ha : a = []
        · rw [ha, append_nil] at hfull
          exact hfull
        · exact dir_of_node ha (by rw [hfull]; exact Option.some_ne_none _)
      rw [walk_dir hdir, hcons]
      refine ih (here ++ [s]) (fun a l ha => ?_) ?_
      · rw [show here ++ [s] ++ a = here ++ s :: a by simp]
        exact hparent (s :: a) l (by rw [ha, cons_append])
      · rw [← hcons]
        exact hlink.imp_right (fun h => absurd h (cons_ne_nil _ _))

/-- **A path that is in a directory and not a link names itself.** -/
theorem place_of_plain (hdir : p = [] ∨ t.node p.dropLast = some .dir) (hlink : t.NotLink p) :
    t.place p = some p := by
  rw [place, walk_plain p [] (fun a s ha => ?_) (Or.inl hlink), nil_append]
  rcases hdir with rfl | hdir
  · exact absurd ha (by simp)
  · rw [ha, dropLast_concat] at hdir
    exact hdir

theorem place_of_node {n : FileNode} (h : t.node p = some n) (hn : ∀ target, n ≠ .link target) :
    t.place p = some p := by
  refine place_of_plain ?_ (fun target hl => ?_)
  · by_cases hp : p = []
    · exact Or.inl hp
    · refine Or.inr (t.below p.dropLast (p.getLast hp) ?_)
      rw [dropLast_append_getLast hp]
      show t.node p ≠ none
      rw [h]
      exact Option.some_ne_none _
  · rw [h] at hl
    exact hn target (Option.some.inj hl)

theorem walk_notLink (n : Nat) (here : FilePath) (parts : List LinkPart) :
    t.node here = some .dir → t.walk n here parts = some q → t.NotLink q := by
  induction n, here, parts using t.walk_induction with
  | nil n here =>
    rw [walk_nil]
    rintro hhere ⟨⟩ target h
    rw [hhere] at h
    cases h
  | up n here rest ih =>
    rw [walk_up]
    exact fun hhere => ih (dir_dropLast hhere)
  | dir n here s rest hdir ih =>
    rw [walk_dir hdir]
    exact fun _ => ih hdir
  | link n here s rest target hl ih =>
    rw [walk_link hl]
    exact fun hhere => ih (dir_start hhere _)
  | loop here s rest target hl =>
    rw [walk_link_zero hl]
    rintro - ⟨⟩
  | last n here s rest hdir hnl =>
    rw [walk_end hdir hnl]
    split_ifs
    · rintro - ⟨⟩
      exact hnl
    · rintro - ⟨⟩

theorem place_notLink (h : t.place p = some q) : t.NotLink q := walk_notLink _ _ _ t.root h

/-- Directories and links stay what they are, and no links are new. -/
def Keeps (t t' : FileTree) : Prop :=
  ∀ p, (t.node p = some .dir → t'.node p = some .dir) ∧
    ∀ target, t.node p = some (.link target) ↔ t'.node p = some (.link target)

theorem Keeps.refl (t : FileTree) : t.Keeps t := fun _ => ⟨id, fun _ => Iff.rfl⟩

theorem Keeps.trans {t'' : FileTree} (h : t.Keeps t') (h' : t'.Keeps t'') : t.Keeps t'' :=
  fun p => ⟨fun hp => (h' p).1 ((h p).1 hp),
    fun target => ((h p).2 target).trans ((h' p).2 target)⟩

theorem walk_of_keeps (h : t.Keeps t') (n : Nat) (here : FilePath) (parts : List LinkPart) :
    t.walk n here parts = some q → t'.walk n here parts = some q := by
  induction n, here, parts using t.walk_induction with
  | nil n here =>
    rw [walk_nil, walk_nil]
    exact id
  | up n here rest ih => rwa [walk_up, walk_up]
  | dir n here s rest hdir ih => rwa [walk_dir hdir, walk_dir ((h _).1 hdir)]
  | link n here s rest target hl ih => rwa [walk_link hl, walk_link (((h _).2 target).mp hl)]
  | loop here s rest target hl =>
    rw [walk_link_zero hl]
    rintro ⟨⟩
  | last n here s rest hdir hnl =>
    rw [walk_end hdir hnl]
    split_ifs with hrest
    · rw [hrest]
      rcases t'.node_cases (here ++ [s]) with hdir' | ⟨target, hl'⟩ | ⟨hdir', hnl'⟩
      · rw [walk_dir hdir', walk_nil]
        exact id
      · exact absurd (((h _).2 target).mpr hl') (hnl target)
      · rw [walk_end hdir' hnl', if_pos rfl]
        exact id
    · rintro ⟨⟩

/-- **What a path names stays named by it.** -/
theorem place_of_keeps (h : t.Keeps t') (hp : t.place p = some q) : t'.place p = some q :=
  walk_of_keeps h _ _ _ hp

variable {x : String}

theorem walk_snoc (hd : t.node d = some .dir) (hlink : t.NotLink (d ++ [x])) (n : Nat)
    (here : FilePath) (parts : List LinkPart) :
    t.walk n here parts = some d → t.walk n here (parts ++ [.name x]) = some (d ++ [x]) := by
  induction n, here, parts using t.walk_induction with
  | nil n here =>
    rw [walk_nil]
    intro h
    obtain rfl := Option.some.inj h
    rcases t.node_cases (here ++ [x]) with hdir | ⟨target, hl⟩ | ⟨hdir, hnl⟩
    · rw [nil_append, walk_dir hdir, walk_nil]
    · exact absurd hl (hlink target)
    · rw [nil_append, walk_end hdir hnl, if_pos rfl]
  | up n here rest ih => rwa [cons_append, walk_up, walk_up]
  | dir n here s rest hdir ih => rwa [cons_append, walk_dir hdir, walk_dir hdir]
  | link n here s rest target hl ih =>
    rwa [cons_append, walk_link hl, walk_link hl, ← append_assoc]
  | loop here s rest target hl =>
    rw [walk_link_zero hl]
    rintro ⟨⟩
  | last n here s rest hdir hnl =>
    rw [walk_end hdir hnl]
    split_ifs
    · rintro ⟨⟩
      exact absurd hd hdir
    · rintro ⟨⟩

theorem walk_of_snoc (n : Nat) (here : FilePath) (parts : List LinkPart) :
    t.node here = some .dir → t.walk n here (parts ++ [.name x]) = some q →
    ∃ d, t.walk n here parts = some d ∧ t.node d = some .dir := by
  induction n, here, parts using t.walk_induction with
  | nil n here => exact fun hhere _ => ⟨here, walk_nil n here, hhere⟩
  | up n here rest ih =>
    rw [cons_append, walk_up, walk_up]
    exact fun hhere => ih (dir_dropLast hhere)
  | dir n here s rest hdir ih =>
    rw [cons_append, walk_dir hdir, walk_dir hdir]
    exact fun _ => ih hdir
  | link n here s rest target hl ih =>
    rw [cons_append, walk_link hl, walk_link hl, ← append_assoc]
    exact fun hhere => ih (dir_start hhere _)
  | loop here s rest target hl =>
    rw [cons_append, walk_link_zero hl]
    rintro - ⟨⟩
  | last n here s rest hdir hnl =>
    rw [cons_append, walk_end hdir hnl,
      if_neg (append_ne_nil_of_right_ne_nil _ (cons_ne_nil _ _))]
    rintro - ⟨⟩

theorem place_of_entry (h : t.entry p = some q) (hlink : t.NotLink q) : t.place p = some q := by
  rw [entry] at h
  split at h
  · cases h
  · next name hlast =>
    obtain ⟨d, hd, rfl⟩ := Option.map_eq_some_iff.mp h
    obtain ⟨hplace, hdir⟩ := Option.filter_eq_some_iff.mp hd
    obtain ⟨dir, rfl⟩ := getLast?_eq_some_iff.mp hlast
    rw [dropLast_concat] at hplace
    rw [place, map_append]
    exact walk_snoc (of_decide_eq_true hdir) hlink _ _ _ hplace

/-- A path leads to a directory that no links are in. -/
structure Rooted (t : FileTree) (base r : FilePath) : Prop where
  place : t.place base = some r
  dir : t.node r = some .dir
  notLink : ∀ x, r <+: x → t.NotLink x

variable {base : FilePath}

theorem Rooted.self (h : t.Rooted base r) : t.Rooted r r :=
  ⟨place_of_node h.dir (fun target hl => by cases hl), h.dir, h.notLink⟩

theorem Rooted.of_keeps (h : t.Rooted base r) (hkeeps : t.Keeps t') : t'.Rooted base r :=
  ⟨place_of_keeps hkeeps h.place, (hkeeps r).1 h.dir,
    fun x hx target hl => h.notLink x hx target (((hkeeps x).2 target).mpr hl)⟩

theorem Rooted.place_eq (h : t.Rooted base r) (cs : List String) :
    ∀ {q}, t.place (base ++ cs) = some q → q = r ++ cs := by
  induction cs using List.reverseRecOn with
  | nil =>
    intro q hq
    rw [append_nil, h.place] at hq
    rw [append_nil]
    exact (Option.some.inj hq).symm
  | append_singleton cs x ih =>
    intro q hq
    rw [← append_assoc] at hq
    have hwalk := hq
    rw [FileTree.place, map_append, map_singleton] at hwalk
    obtain ⟨d, hd, hdir⟩ := walk_of_snoc _ _ _ t.root hwalk
    obtain rfl := ih hd
    have hlink : t.NotLink (r ++ cs ++ [x]) := by
      refine h.notLink _ ?_
      rw [append_assoc]
      exact prefix_append _ _
    rw [← append_assoc]
    exact Option.some.inj (hwalk.symm.trans (walk_snoc hdir hlink _ _ _ hd))

theorem Rooted.place_of_node (h : t.Rooted base r) (cs : List String) :
    t.node (r ++ cs) ≠ none → t.place (base ++ cs) = some (r ++ cs) := by
  induction cs using List.reverseRecOn with
  | nil =>
    intro _
    rw [append_nil, append_nil]
    exact h.place
  | append_singleton cs x ih =>
    intro hnode
    rw [← append_assoc] at hnode
    have hdir : t.node (r ++ cs) = some .dir := t.below _ x hnode
    have hlink : t.NotLink (r ++ cs ++ [x]) := by
      refine h.notLink _ ?_
      rw [append_assoc]
      exact prefix_append _ _
    rw [← append_assoc, ← append_assoc, FileTree.place, map_append]
    exact walk_snoc hdir hlink _ _ _ (ih (by rw [hdir]; exact Option.some_ne_none _))

variable {cs : List String}

theorem Rooted.entry_eq {base r e : FilePath} (h : t.Rooted base r)
    (hcs : cs ≠ []) (he : t.entry (base ++ cs) = some e) : e = r ++ cs := by
  have hlast := dropLast_append_getLast hcs
  rw [entry, getLast?_append_of_ne_nil _ hcs, getLast?_eq_some_getLast hcs,
    dropLast_append_of_ne_nil hcs] at he
  obtain ⟨d, hd, rfl⟩ := Option.map_eq_some_iff.mp he
  obtain rfl := h.place_eq _ (Option.filter_eq_some_iff.mp hd).1
  rw [append_assoc, hlast]

/-! ### What the operations change -/

variable {bytes : List UInt8}

theorem write_eq_some (h : t.write p bytes = some t') : ∃ q, t.place p = some q ∧ t.Slot q ∧
      ∀ x, t'.node x = if x = q then some (.file bytes) else t.node x := by
  rw [write] at h
  cases hq : t.place p with
  | none =>
    rw [hq] at h
    cases h
  | some q =>
    rw [hq] at h
    dsimp only at h
    split_ifs at h with hslot
    obtain rfl := Option.some.inj h
    exact ⟨q, rfl, hslot, node_update hslot⟩

theorem write_of_slot (hp : t.place p = some q) (hslot : t.Slot q) :
    t.write p bytes = some (t.update q (some (.file bytes)) hslot) := by
  rw [write, hp]
  exact dif_pos hslot

theorem removeFile_eq_some (h : t.removeFile p = some t') :
    ∃ q, t.entry p = some q ∧ t.Slot q ∧ t.node q ≠ none ∧
      ∀ x, t'.node x = if x = q then none else t.node x := by
  rw [removeFile] at h
  cases hq : t.entry p with
  | none =>
    rw [hq] at h
    cases h
  | some q =>
    rw [hq] at h
    dsimp only at h
    split_ifs at h with hslot
    obtain rfl := Option.some.inj h
    exact ⟨q, rfl, hslot.1, hslot.2, node_update hslot.1⟩

theorem mkdir_eq_some (h : t.mkdir p = some t') :
    ∃ q, t.entry p = some q ∧ t.node q = none ∧
      ∀ x, t'.node x = if x = q then some .dir else t.node x := by
  rw [mkdir] at h
  cases hq : t.entry p with
  | none =>
    rw [hq] at h
    cases h
  | some q =>
    rw [hq] at h
    dsimp only at h
    split_ifs at h with hslot
    obtain rfl := Option.some.inj h
    exact ⟨q, rfl, hslot.2, node_update hslot.1⟩

def AddsDirs (t t' : FileTree) : Prop :=
  ∀ x, t'.node x = t.node x ∨ (t.node x = none ∧ t'.node x = some .dir)

theorem AddsDirs.trans {t'' : FileTree} (h : t.AddsDirs t') (h' : t'.AddsDirs t'') :
    t.AddsDirs t'' := by
  intro x
  rcases h x with hx | ⟨hnone, hdir⟩
  · rw [← hx]
    exact h' x
  · rcases h' x with hx' | ⟨hnone', -⟩
    · exact Or.inr ⟨hnone, hx'.trans hdir⟩
    · rw [hdir] at hnone'
      cases hnone'

theorem AddsDirs.keeps (h : t.AddsDirs t') : t.Keeps t' := by
  intro x
  rcases h x with hx | ⟨hnone, hdir⟩
  · rw [hx]
    exact ⟨id, fun target => Iff.rfl⟩
  · rw [hnone, hdir]
    refine ⟨fun h0 => (by cases h0), fun target => iff_of_false ?_ ?_⟩
    · exact fun h0 => by cases h0
    · exact fun h0 => by cases h0

theorem mkdir_adds (h : t.mkdir p = some t') : t.AddsDirs t' := by
  obtain ⟨q, -, hnone, hnode⟩ := mkdir_eq_some h
  intro x
  rw [hnode]
  split_ifs with hx
  · exact Or.inr ⟨hx ▸ hnone, rfl⟩
  · exact Or.inl rfl

theorem createDirAll_adds (h : t.createDirAll p = some t') : t.AddsDirs t' := by
  rw [createDirAll] at h
  generalize p.inits = dirs at h
  induction dirs generalizing t with
  | nil =>
    obtain rfl := Option.some.inj h
    exact fun x => Or.inl rfl
  | cons d dirs ih =>
    rw [foldlM_cons] at h
    obtain ⟨t₁, ht₁, hrest⟩ := Option.bind_eq_some_iff.mp h
    refine AddsDirs.trans ?_ (ih hrest)
    split_ifs at ht₁
    · obtain rfl := Option.some.inj ht₁
      exact fun x => Or.inl rfl
    · exact mkdir_adds ht₁

theorem rename_eq_some (h : t.rename source target = some t')
    (hdir : ∀ s, t.entry source = some s → t.node s ≠ some .dir) :
    ∃ s d, t.entry source = some s ∧ t.entry target = some d ∧ t.node s ≠ none ∧
      ((s = d ∧ t' = t) ∨ (s ≠ d ∧ t.Slot d ∧
        ∀ x, t'.node x = if x = s then none else if x = d then t.node s else t.node x)) := by
  rw [rename] at h
  cases hs : t.entry source with
  | none =>
    rw [hs] at h
    cases h
  | some s =>
    cases hd : t.entry target with
    | none =>
      rw [hs, hd] at h
      cases h
    | some d =>
      rw [hs, hd] at h
      dsimp only at h
      have hsource := hdir s hs
      split_ifs at h with heq hnone hmov hslot hslot'
      · obtain rfl := Option.some.inj h
        exact ⟨s, d, rfl, rfl, hnone, Or.inl ⟨heq, rfl⟩⟩
      · exact absurd hmov.1 hsource
      · obtain rfl := Option.some.inj h
        refine ⟨s, d, rfl, rfl, hslot.2.1, Or.inr ⟨heq, hslot.2.2, fun x => ?_⟩⟩
        rw [node_update, node_update]

theorem rename_frame (h : t.rename source target = some t') :
    ∃ s d, t.entry source = some s ∧ t.entry target = some d ∧
      ∀ x, ¬ s <+: x → ¬ d <+: x → t'.node x = t.node x := by
  rw [rename] at h
  cases hs : t.entry source with
  | none =>
    rw [hs] at h
    cases h
  | some s =>
    cases hd : t.entry target with
    | none =>
      rw [hs, hd] at h
      cases h
    | some d =>
      rw [hs, hd] at h
      dsimp only at h
      refine ⟨s, d, rfl, rfl, fun x hxs hxd => ?_⟩
      split_ifs at h with heq hnone hmov hslot hslot'
      · obtain rfl := Option.some.inj h
        rfl
      · obtain rfl := Option.some.inj h
        show (t.rehang s d).find? x = _
        rw [find?_rehang hmov, if_neg hxd, if_neg hxs]
      · obtain rfl := Option.some.inj h
        rw [node_update, node_update, if_neg, if_neg]
        · rintro rfl
          exact hxd prefix_rfl
        · rintro rfl
          exact hxs prefix_rfl

theorem rename_of_slot {source target s d : FilePath} (hs : t.entry source = some s)
    (hd : t.entry target = some d) (hne : s ≠ d) (hslot : t.Slot s) (hsome : t.node s ≠ none)
    (hslot' : t.Slot d) : ∃ t', t.rename source target = some t' ∧
      ∀ x, t'.node x = if x = s then none else if x = d then t.node s else t.node x := by
  have hmov : ¬ t.Movable s d := fun h => hslot.2.2 h.1
  have hall : t.Slot s ∧ t.node s ≠ none ∧ t.Slot d := ⟨hslot, hsome, hslot'⟩
  have hmoved : (t.update d (t.node s) hslot').Slot s := by
    refine ⟨hslot.1, ?_, ?_⟩
    · rw [node_update, if_neg]
      · exact hslot.2.1
      · rintro rfl
        exact hslot'.2.2 hslot.2.1
    · rw [node_update, if_neg hne]
      exact hslot.2.2
  refine ⟨(t.update d (t.node s) hslot').update s none hmoved, ?_, fun x => ?_⟩
  · rw [rename, hs, hd]
    dsimp only
    rw [if_neg hne, dif_neg hmov, dif_pos hall, dif_pos hmoved]
  · rw [node_update, node_update]

theorem rename_self {source target s : FilePath} (hs : t.entry source = some s)
    (hd : t.entry target = some s) (hsome : t.node s ≠ none) :
    t.rename source target = some t := by
  rw [rename, hs, hd]
  dsimp only
  rw [if_pos rfl, if_neg hsome]

theorem entry_of_dir (hp : p ≠ []) (hdir : t.node p.dropLast = some .dir) : t.entry p = some p := by
  have hplace : t.place p.dropLast = some p.dropLast :=
    place_of_node hdir (fun target h => by cases h)
  rw [entry, getLast?_eq_some_getLast hp, hplace]
  dsimp only
  rw [Option.filter_some, if_pos (decide_eq_true hdir), Option.map_some, dropLast_append_getLast hp]

theorem createDirAll_of_dir (h : t.node p = some .dir) : t.createDirAll p = some t := by
  have hall : ∀ d ∈ p.inits, (t.canonicalize d).bind t.node = some .dir := by
    intro d hd
    obtain ⟨r, rfl⟩ := (mem_inits _ _).mp hd
    have hdir : t.node d = some .dir := by
      by_cases hr : r = []
      · subst hr
        rw [append_nil] at h
        exact h
      · exact dir_of_node hr (by rw [h]; exact Option.some_ne_none _)
    rw [canonicalize, place_of_node hdir (fun target hl => by cases hl), Option.filter_some,
      if_pos (by rw [hdir]; rfl)]
    exact hdir
  rw [createDirAll]
  generalize p.inits = dirs at hall
  induction dirs with
  | nil => rfl
  | cons d dirs ih =>
    rw [foldlM_cons, if_pos (hall d mem_cons_self)]
    exact ih (fun e he => hall e (mem_cons_of_mem d he))

theorem slot_of_file (h : t.node p = some (.file bytes)) : t.Slot p := by
  have hp : p ≠ [] := by
    rintro rfl
    have hroot : t.node [] = some .dir := t.root
    rw [hroot] at h
    cases h
  refine ⟨hp, (parent_of_node (h ▸ Option.some_ne_none _)).resolve_left hp, ?_⟩
  rw [h]
  exact fun hd => by cases hd

theorem canonicalize_eq_some : t.canonicalize p = some q ↔ t.place p = some q ∧ t.node q ≠ none := by
  rw [canonicalize, Option.filter_eq_some_iff, Option.isSome_iff_ne_none]

theorem canonicalize_nil (t : FileTree) : t.canonicalize [] = some [] := by
  refine canonicalize_eq_some.mpr ⟨walk_nil _ _, ?_⟩
  rw [node, t.root]
  exact Option.some_ne_none _

theorem walk_parent (n : Nat) (here : FilePath) (parts : List LinkPart) :
    t.node here = some .dir → t.walk n here parts = some q →
    q = [] ∨ t.node q.dropLast = some .dir := by
  induction n, here, parts using t.walk_induction with
  | nil n here =>
    rw [walk_nil]
    rintro hhere ⟨⟩
    exact parent_of_node (hhere ▸ Option.some_ne_none _)
  | up n here rest ih =>
    rw [walk_up]
    exact fun hhere => ih (dir_dropLast hhere)
  | dir n here s rest hdir ih =>
    rw [walk_dir hdir]
    exact fun _ => ih hdir
  | link n here s rest target hl ih =>
    rw [walk_link hl]
    exact fun hhere => ih (dir_start hhere _)
  | loop here s rest target hl =>
    rw [walk_link_zero hl]
    rintro - ⟨⟩
  | last n here s rest hdir hnl =>
    rw [walk_end hdir hnl]
    split_ifs
    · rintro hhere ⟨⟩
      rw [dropLast_concat]
      exact Or.inr hhere
    · rintro - ⟨⟩

theorem slot_of_vacant (hp : t.place p = some q) (hq : t.node q = none) : t.Slot q := by
  have hne : q ≠ [] := by
    rintro rfl
    have hroot : t.node [] = some .dir := t.root
    rw [hroot] at hq
    cases hq
  refine ⟨hne, (walk_parent _ _ _ t.root hp).resolve_left hne, ?_⟩
  rw [hq]
  exact fun h => by cases h

theorem canonicalize_of_append (h : t.canonicalize (p ++ r) ≠ none) : t.canonicalize p ≠ none := by
  induction r using List.reverseRecOn with
  | nil =>
    rw [append_nil] at h
    exact h
  | append_singleton r x ih =>
    refine ih ?_
    obtain ⟨q, hq⟩ := Option.ne_none_iff_exists'.mp h
    have hplace := (canonicalize_eq_some.mp hq).1
    rw [place, ← append_assoc, map_append] at hplace
    obtain ⟨d, hd, hdir⟩ := walk_of_snoc _ _ _ t.root hplace
    have hcan : t.canonicalize (p ++ r) = some d :=
      canonicalize_eq_some.mpr ⟨hd, by rw [hdir]; exact Option.some_ne_none _⟩
    rw [hcan]
    exact Option.some_ne_none _

theorem read_eq_some (h : t.read p = some bytes) :
    ∃ q, t.canonicalize p = some q ∧ t.node q = some (.file bytes) := by
  rw [read] at h
  cases hq : t.canonicalize p with
  | none =>
    rw [hq] at h
    cases h
  | some q =>
    rw [hq, Option.bind_some] at h
    refine ⟨q, rfl, ?_⟩
    split at h
    · rename_i b hb
      rw [hb, Option.some.inj h]
    · cases h

/-- Directories, links and files stay, and no links are new. -/
def Grows (t t' : FileTree) : Prop :=
  t.Keeps t' ∧ ∀ p, (∃ bytes, t.node p = some (.file bytes)) →
    ∃ bytes, t'.node p = some (.file bytes)

theorem Grows.node_ne_none (h : t.Grows t') (hp : t.node p ≠ none) : t'.node p ≠ none := by
  obtain ⟨n, hn⟩ := Option.ne_none_iff_exists'.mp hp
  cases n with
  | file bytes =>
    obtain ⟨bytes', hb⟩ := h.2 p ⟨bytes, hn⟩
    rw [hb]
    exact Option.some_ne_none _
  | dir =>
    rw [(h.1 p).1 hn]
    exact Option.some_ne_none _
  | link target =>
    rw [((h.1 p).2 target).mp hn]
    exact Option.some_ne_none _

theorem Grows.canonicalize (h : t.Grows t') (hp : t.canonicalize p = some q) :
    t'.canonicalize p = some q := by
  obtain ⟨hplace, hnode⟩ := canonicalize_eq_some.mp hp
  exact canonicalize_eq_some.mpr ⟨place_of_keeps h.1 hplace, h.node_ne_none hnode⟩

theorem grows_of_file (hdir : t.node q ≠ some .dir) (hlink : t.NotLink q)
    (hnode : ∀ x, t'.node x = if x = q then some (.file bytes) else t.node x) : t.Grows t' := by
  refine ⟨fun x => ?_, fun x hx => ?_⟩
  · rw [hnode]
    by_cases hq : x = q
    · subst hq
      rw [if_pos rfl]
      refine ⟨fun h => absurd h hdir, fun target => iff_of_false (hlink target) ?_⟩
      exact fun h => by cases h
    · rw [if_neg hq]
      exact ⟨id, fun target => Iff.rfl⟩
  · rw [hnode]
    split_ifs
    · exact ⟨bytes, rfl⟩
    · exact hx

/-! ### Files -/

theorem fileAt_congr (h : t'.node p = t.node p) : t'.fileAt p = t.fileAt p := by
  rw [fileAt, fileAt, h]

theorem node_of_fileAt (h : t.fileAt p = some bytes) : t.node p = some (.file bytes) := by
  rw [fileAt] at h
  split at h
  · next b hb => rw [hb, Option.some.inj h]
  · cases h

theorem AddsDirs.fileAt_eq (h : t.AddsDirs t') (p : FilePath) : t'.fileAt p = t.fileAt p := by
  rcases h p with hp | ⟨hnone, hdir⟩
  · exact fileAt_congr hp
  · rw [fileAt, fileAt, hnone, hdir]

theorem write_keeps (h : t.write p bytes = some t') : t.Keeps t' ∧ t'.Keeps t := by
  obtain ⟨q, hplace, hslot, hnode⟩ := write_eq_some h
  have hlink := place_notLink hplace
  refine ⟨(grows_of_file hslot.2.2 hlink hnode).1, fun x => ?_⟩
  rw [hnode]
  by_cases hx : x = q
  · subst hx
    rw [if_pos rfl]
    refine ⟨fun h => (by cases h), fun target => iff_of_false ?_ (hlink target)⟩
    exact fun h => by cases h
  · rw [if_neg hx]
    exact ⟨id, fun target => Iff.rfl⟩

theorem entry_of_keeps (h : t.Keeps t') (hp : t.entry p = some q) : t'.entry p = some q := by
  rw [entry] at hp ⊢
  split at hp
  · cases hp
  · obtain ⟨d, hd, rfl⟩ := Option.map_eq_some_iff.mp hp
    obtain ⟨hplace, hdir⟩ := Option.filter_eq_some_iff.mp hd
    rw [place_of_keeps h hplace, Option.filter_some,
      if_pos (decide_eq_true ((h d).1 (of_decide_eq_true hdir)))]
    rfl

/-- The tree after directories were made down a path: the tree as it was, or with a chain of
directories from the first name that was missing on. -/
def Deepens (t t' : FileTree) (p : FilePath) : Prop :=
  (t' = t ∧ ∃ c, t.canonicalize p = some c ∧ t.node c = some .dir) ∨
    ∃ d x r c, p = d ++ x :: r ∧ t.canonicalize d = some c ∧ t.node c = some .dir ∧
      t.node (c ++ [x]) = none ∧ t'.place p = some (c ++ x :: r) ∧
      ∀ y, t'.node y = if c ++ [x] <+: y ∧ y <+: c ++ x :: r then some .dir else t.node y

theorem place_snoc (hp : t.place p = some d) (hd : t.node d = some .dir)
    (hlink : t.NotLink (d ++ [x])) : t.place (p ++ [x]) = some (d ++ [x]) := by
  rw [place, map_append]
  exact walk_snoc hd hlink _ _ _ hp

theorem entry_snoc (he : t.entry (p ++ [x]) = some q) :
    ∃ d, t.place p = some d ∧ t.node d = some .dir ∧ q = d ++ [x] := by
  rw [entry, getLast?_concat, dropLast_concat] at he
  obtain ⟨d, hd, rfl⟩ := Option.map_eq_some_iff.mp he
  obtain ⟨hplace, hdir⟩ := Option.filter_eq_some_iff.mp hd
  exact ⟨d, hplace, of_decide_eq_true hdir, rfl⟩

theorem place_mkdir (h : t.mkdir p = some t') (he : t.entry p = some q) : t'.place p = some q := by
  obtain ⟨q', he', -, hnode⟩ := mkdir_eq_some h
  rw [he] at he'
  obtain rfl := Option.some.inj he'
  refine place_of_entry (entry_of_keeps (mkdir_adds h).keeps he) (fun target hl => ?_)
  rw [hnode, if_pos rfl] at hl
  cases hl

theorem createDirAll_snoc (t : FileTree) (p : FilePath) (x : String) :
    t.createDirAll (p ++ [x]) = (t.createDirAll p).bind (fun t =>
      if (t.canonicalize (p ++ [x])).bind t.node = some .dir then some t else t.mkdir (p ++ [x])) := by
  rw [createDirAll, inits_append, foldlM_append]
  refine bind_congr (fun t₁ => ?_)
  show (List.foldlM _ t₁ [p ++ [x]]) = _
  exact bind_pure _

theorem prefix_chain (c : FilePath) (y : String) (r : List String) : c ++ [y] <+: c ++ y :: r := by
  rw [prefix_append_right_inj, prefix_cons_inj]
  exact nil_prefix

theorem chain_end {c r : FilePath} {y : String} (hnone : t.node (c ++ [y]) = none)
    (hnode : ∀ z, t'.node z = if c ++ [y] <+: z ∧ z <+: c ++ y :: r then some .dir else t.node z) :
    t'.node (c ++ y :: r) = some .dir ∧ ∀ x, t'.node (c ++ y :: r ++ [x]) = none := by
  refine ⟨?_, fun x => ?_⟩
  · rw [hnode, if_pos ⟨prefix_chain c y r, prefix_rfl⟩]
  · have hlong : ¬ (c ++ y :: r ++ [x] <+: c ++ y :: r) := by
      intro h
      have := h.length_le
      rw [length_append, length_singleton] at this
      omega
    rw [hnode, if_neg (fun h => hlong h.2)]
    by_contra hsome
    have hcons : c ++ y :: r ++ [x] = c ++ [y] ++ (r ++ [x]) := by simp
    rw [hcons] at hsome
    rw [dir_of_node (append_ne_nil_of_right_ne_nil _ (cons_ne_nil _ _)) hsome] at hnone
    cases hnone

theorem Deepens.step {t₁ : FileTree} (h : t.Deepens t₁ p)
    (hstep : (if (t₁.canonicalize (p ++ [x])).bind t₁.node = some .dir then some t₁
      else t₁.mkdir (p ++ [x])) = some t') : t.Deepens t' (p ++ [x]) := by
  rcases h with ⟨rfl, c, hc, hdir⟩ | ⟨d, y, r, c, rfl, hc, hparent, hnone, hplace, hnode⟩
  · split_ifs at hstep with hthere
    · obtain rfl := Option.some.inj hstep
      exact Or.inl ⟨rfl, Option.bind_eq_some_iff.mp hthere⟩
    · obtain ⟨q, he, hnone, hnode⟩ := mkdir_eq_some hstep
      obtain ⟨e, hplace, -, rfl⟩ := entry_snoc he
      rw [(canonicalize_eq_some.mp hc).1] at hplace
      obtain rfl := Option.some.inj hplace
      have hnew : ∀ z, t'.node z = if c ++ [x] <+: z ∧ z <+: c ++ x :: [] then some .dir
          else t₁.node z := by
        intro z
        rw [hnode]
        by_cases hz : z = c ++ [x]
        · rw [if_pos hz, if_pos ⟨hz ▸ prefix_rfl, hz ▸ prefix_rfl⟩]
        · rw [if_neg hz, if_neg (fun h => hz (h.2.eq_of_length_le h.1.length_le))]
      exact Or.inr ⟨p, x, [], c, rfl, hc, hdir, hnone, place_mkdir hstep he, hnew⟩
  · obtain ⟨hdir, hvacant⟩ := chain_end hnone hnode
    replace hvacant := hvacant x
    have hend : c ++ y :: r ++ [x] = c ++ y :: (r ++ [x]) := by
      rw [append_assoc, cons_append]
    have hnext := place_snoc (x := x) hplace hdir (fun target hl => by rw [hvacant] at hl; cases hl)
    have hcan : t₁.canonicalize (d ++ y :: r ++ [x]) = none := by
      rw [canonicalize, hnext, Option.filter_some, hvacant]
      rfl
    rw [hcan, Option.bind_none, if_neg (fun h => by cases h)] at hstep
    obtain ⟨q, he, -, hnode'⟩ := mkdir_eq_some hstep
    obtain ⟨e, hplace', -, rfl⟩ := entry_snoc he
    rw [hplace] at hplace'
    obtain rfl := Option.some.inj hplace'
    refine Or.inr ⟨d, y, r ++ [x], c, by rw [append_assoc, cons_append], hc, hparent, hnone,
      ?_, ?_⟩
    · rw [← hend]
      exact place_mkdir hstep he
    · intro z
      rw [hnode', hend, hnode]
      by_cases hz : z = c ++ y :: (r ++ [x])
      · rw [if_pos hz, if_pos ⟨hz ▸ prefix_chain c y _, hz ▸ prefix_rfl⟩]
      · rw [if_neg hz]
        refine if_congr (and_congr_right (fun _ => ?_)) rfl rfl
        rw [← hend, prefix_concat_iff, hend]
        exact ⟨Or.inr, fun h => h.resolve_left hz⟩

/-- **Making the directories of a path adds a chain of them to the deepest one there is.** -/
theorem createDirAll_deepens (h : t.createDirAll p = some t') : t.Deepens t' p := by
  induction p using List.reverseRecOn generalizing t' with
  | nil =>
    have hself : t.createDirAll [] = some t := createDirAll_of_dir t.root
    rw [hself] at h
    exact Or.inl ⟨(Option.some.inj h).symm, [], t.canonicalize_nil, t.root⟩
  | append_singleton p x ih =>
    rw [createDirAll_snoc] at h
    obtain ⟨t₁, ht₁, hstep⟩ := Option.bind_eq_some_iff.mp h
    exact (ih ht₁).step hstep

theorem node_ne_dir_of_write {e : FilePath} (h : t.write p bytes = some t')
    (he : t'.entry p = some e) : t'.node e ≠ some .dir := by
  intro hdir
  obtain ⟨q, hplace, -, hnode⟩ := write_eq_some h
  have hself := place_of_entry he (fun target hl => by rw [hdir] at hl; cases hl)
  rw [place_of_keeps (write_keeps h).1 hplace] at hself
  rw [hnode, if_pos (Option.some.inj hself).symm] at hdir
  cases hdir

theorem rename_ne_dir {source target d : FilePath} (h : t.rename source target = some t')
    (hsource : ∀ e, t.entry source = some e → t.node e ≠ some .dir)
    (hd : t.entry target = some d) : t.node d ≠ some .dir := by
  obtain ⟨e, d', he, hd', -, ⟨rfl, -⟩ | ⟨-, hslot, -⟩⟩ := rename_eq_some h hsource
  · rw [← Option.some.inj (hd'.symm.trans hd)]
    exact hsource e he
  · rw [← Option.some.inj (hd'.symm.trans hd)]
    exact hslot.2.2

theorem entry_self {n : FileNode} (h : t.node p = some n) (he : t.entry p = some q) : q = p := by
  have hp : p ≠ [] := by
    rintro rfl
    cases he
  have hdir : t.node p.dropLast = some .dir := by
    refine t.below p.dropLast (p.getLast hp) ?_
    rw [dropLast_append_getLast hp]
    show t.node p ≠ none
    rw [h]
    exact Option.some_ne_none _
  exact Option.some.inj (he.symm.trans (entry_of_dir hp hdir))

theorem Rooted.move {base base' r : FilePath} {cs cs' : List String}
    (h : t.Rooted base r) (h' : t.Rooted base' r) (hcs : cs ≠ []) (hcs' : cs' ≠ [])
    (hfile : t.node (r ++ cs) = some (.file bytes))
    (hrename : t.rename (base ++ cs) (base' ++ cs') = some t') :
    t.Keeps t' ∧ t'.fileAt (r ++ cs') = some bytes ∧
      ∀ x, x ≠ r ++ cs' → t'.fileAt x ≠ none → x ≠ r ++ cs ∧ t'.fileAt x = t.fileAt x := by
  have hnotDir : ∀ e, t.entry (base ++ cs) = some e → t.node e ≠ some .dir := by
    intro e he hdir
    rw [h.entry_eq hcs he, hfile] at hdir
    cases hdir
  obtain ⟨e, d, he, hd, -, hmoved⟩ := rename_eq_some hrename hnotDir
  obtain rfl := h.entry_eq hcs he
  obtain rfl := h'.entry_eq hcs' hd
  rcases hmoved with ⟨heq, rfl⟩ | ⟨hne, hslot, hmoved⟩
  · refine ⟨.refl _, ?_, fun x hx _ => ⟨heq ▸ hx, rfl⟩⟩
    rw [fileAt, ← heq, hfile]
  · refine ⟨fun x => ?_, ?_, fun x hx hsome => ?_⟩
    · rw [hmoved]
      split_ifs with hx hx'
      · rw [hx, hfile]
        refine ⟨fun hdir => (by cases hdir), fun target => iff_of_false ?_ ?_⟩
        · exact fun hl => by cases hl
        · exact fun hl => by cases hl
      · rw [hx', hfile]
        refine ⟨fun hdir => absurd hdir hslot.2.2, fun target => iff_of_false ?_ ?_⟩
        · exact h.notLink _ (prefix_append _ _) target
        · exact fun hl => by cases hl
      · exact ⟨id, fun target => Iff.rfl⟩
    · rw [fileAt, hmoved, if_neg (Ne.symm hne), if_pos rfl, hfile]
    · have hx' : x ≠ r ++ cs := by
        rintro rfl
        refine hsome ?_
        rw [fileAt, hmoved, if_pos rfl]
      refine ⟨hx', fileAt_congr ?_⟩
      rw [hmoved, if_neg hx', if_neg hx]

theorem Rooted.replace {cs cs' : List String}
    {t₁ t₂ : FileTree} (h : t.Rooted base r) (hcs : cs ≠ []) (hcs' : cs' ≠ [])
    (hwrite : t.write (base ++ cs') bytes = some t₁)
    (hrename : t₁.rename (base ++ cs') (base ++ cs) = some t₂) :
    t.Keeps t₂ ∧ t₂.fileAt (r ++ cs) = some bytes ∧
      ∀ x, x ≠ r ++ cs → t₂.fileAt x ≠ none → t₂.fileAt x = t.fileAt x := by
  obtain ⟨q, hplace, -, hnode⟩ := write_eq_some hwrite
  obtain ⟨hkeeps, -⟩ := write_keeps hwrite
  obtain rfl := h.place_eq _ hplace
  have h₁ := h.of_keeps hkeeps
  have hwritten : t₁.node (r ++ cs') = some (.file bytes) := by rw [hnode, if_pos rfl]
  obtain ⟨hkeeps₁, hfile, hothers⟩ := h₁.move h₁ hcs' hcs hwritten hrename
  refine ⟨hkeeps.trans hkeeps₁, hfile, fun x hx hsome => ?_⟩
  obtain ⟨hx', hsame⟩ := hothers x hx hsome
  exact hsame.trans (fileAt_congr ((hnode x).trans (if_neg hx')))

end FileTree

end Modbit.Lib
