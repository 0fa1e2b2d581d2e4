import Modbit.Lib.FileTree
import Modbit.Lib.Text
import Modbit.Retrieval.Merkle

/-!
# The worktree walker

A worktree is a directory of a file tree, links and all.  The walker goes down the real
directories, leaves out what is hidden or ignored, and takes the regular files that are
not generated, not too large and not binary: `walkWorktree`.  What ignore files say of a
path is any function.

`find?_walkWorktree` says what the walker takes, path by path, when no name has a
backslash in it: the walker writes these as slashes.
-/

namespace Modbit

open Lib List

namespace Retrieval

/-! ### Worktrees -/

def ValidName (c : String) : Prop := c ≠ "" ∧ c ≠ "." ∧ c ≠ ".." ∧ '/' ∉ c.toList

instance (c : String) : Decidable (ValidName c) := inferInstanceAs (Decidable (_ ∧ _))

structure Worktree (root : FilePath) where
  tree : FileTree
  dir : tree.node root = some .dir
  names : ∀ k ∈ tree.nodes.keys, root <+: k → ∀ c ∈ k.drop root.length, ValidName c

def relText (rel : List String) : String :=
  String.ofList (['/'].intercalate (rel.map String.toList))

/-- `replace('\\', "/")`. -/
def slashed (s : String) : String :=
  String.ofList (s.toList.map (fun c => if c = '\\' then '/' else c))

/-- The steps of a path, `.` left out. -/
def pathParts (path : String) : List LinkPart :=
  ((Text.split '/' path).filter (fun c => c ≠ "" ∧ c ≠ ".")).map
    (fun c => if c = ".." then .up else .name c)

namespace Worktree

variable {root : FilePath} (w : Worktree root)

/-- `std::fs::read(root.join(path))`. -/
def readPath (path : String) : Option (List UInt8) :=
  let parts := if Text.startsWith path "/" then pathParts path
    else root.map .name ++ pathParts path
  (w.tree.walk FileTree.maxLinks [] parts).bind w.tree.fileAt

def leaf (rel : List String) : Option FileNode :=
  (w.tree.node (root ++ rel)).filter (fun n => n ≠ .dir)

end Worktree

/-! ### The rules -/

def maxIndexedBytes : Nat := 256 * 1024

def policyTagged (name : String) : Bool :=
  name ∈ ["target", "node_modules", "dist", "vendor", "vendors", "vendored"]

def isIndexable (bytes : List UInt8) : Bool := !(bytes.take 8192).any (· == 0)

inductive IgnoreMatch where
  | none | ignore | whitelist
  deriving DecidableEq

section Walk

variable (ignores : List String → IgnoreMatch)

def hidden (rel : List String) : Bool :=
  match rel.getLast? with
  | some name => Text.startsWith name "."
  | none => false

/-- An entry the iterator does not yield; it does not go below it either. -/
def skipped (rel : List String) : Bool :=
  match ignores rel with
  | .ignore => true
  | .whitelist => false
  | .none => hidden rel

def reached (rel : List String) : Bool :=
  rel.inits.all (fun p => p = [] || !skipped ignores p)

/-- The checks that look at the path and the size of a regular file. -/
def admits (rel : List String) (size : Nat) : Bool :=
  reached ignores rel && !rel.any policyTagged && size ≤ maxIndexedBytes

/-- `rel.to_string_lossy().replace('\\', "/")`. -/
def relDisplay (rel : List String) : String := slashed (relText rel)

variable {root : FilePath}

/-- The bytes the walker takes at an entry of the tree. -/
def takes (root : FilePath) (e : FilePath × FileNode) : Option (List UInt8) :=
  match e.2 with
  | .file bytes =>
    if admits ignores (e.1.drop root.length) bytes.length && isIndexable bytes then some bytes
    else none
  | _ => none

def walkWorktree (w : Worktree root) : Merkle.Files :=
  .ofList ((w.tree.nodes.entries.filter (fun e => root <+: e.1)).filterMap
    (fun e => (takes ignores root e).map (fun bytes => (relDisplay (e.1.drop root.length), bytes))))

def Worktree.found (w : Worktree root) (rel : List String) : Option (List UInt8) :=
  (w.tree.node (root ++ rel)).bind (fun n => takes ignores root (root ++ rel, n))

end Walk

/-! ### Texts of paths -/

/-- Names none of which has a slash in it, and one at least. -/
def Named (rel : List String) : Prop := rel ≠ [] ∧ ∀ c ∈ rel, ValidName c

def Worktree.Plain {root : FilePath} (w : Worktree root) : Prop :=
  ∀ k ∈ w.tree.nodes.keys, root <+: k → ∀ c ∈ k.drop root.length, '\\' ∉ c.toList

instance {root : FilePath} (w : Worktree root) : Decidable w.Plain :=
  inferInstanceAs (Decidable (∀ k ∈ _, _))

variable {rel : List String}

theorem split_relText (h : Named rel) : Text.split '/' (relText rel) = rel := by
  rw [Text.split, relText, String.toList_ofList, splitOn_intercalate, map_map]
  · rw [show String.ofList ∘ String.toList = id from funext (fun c => String.ofList_toList)]
    exact map_id rel
  · intro l hl
    obtain ⟨c, hc, rfl⟩ := mem_map.mp hl
    exact (h.2 c hc).2.2.2
  · exact fun hnil => h.1 (map_eq_nil_iff.mp hnil)

theorem relText_inj {rel rel' : List String} (h : Named rel) (h' : Named rel')
    (heq : relText rel = relText rel') : rel = rel' := by
  rw [← split_relText h, heq, split_relText h']

theorem pathParts_relText (h : Named rel) : pathParts (relText rel) = rel.map .name := by
  rw [pathParts, split_relText h, filter_eq_self.mpr]
  · refine map_congr_left (fun c hc => if_neg (h.2 c hc).2.2.1)
  · intro c hc
    exact decide_eq_true ⟨(h.2 c hc).1, (h.2 c hc).2.1⟩

theorem startsWith_relText (h : Named rel) : Text.startsWith (relText rel) "/" = false := by
  rw [Bool.eq_false_iff]
  intro hslash
  obtain ⟨rest, hrest⟩ := isPrefixOf_iff_prefix.mp hslash
  have hsplit := split_relText h
  rw [Text.split, ← hrest] at hsplit
  have hfirst : ("/".toList ++ rest).splitOn '/' = [] :: rest.splitOn '/' :=
    splitOn_append_cons_self_of_not_mem not_mem_nil rest
  rw [hfirst, map_cons] at hsplit
  exact (h.2 "" (hsplit ▸ mem_cons_self)).1 rfl

theorem slashed_relText (h : ∀ c ∈ rel, '\\' ∉ c.toList) : slashed (relText rel) = relText rel := by
  have hchars : ∀ c ∈ (relText rel).toList, c ≠ '\\' := by
    rw [relText, String.toList_ofList]
    intro c hc hback
    rcases Text.mem_intercalate hc with hsep | ⟨l, hl, hmem⟩
    · rw [hsep] at hback
      exact absurd hback (by decide)
    · obtain ⟨name, hname, rfl⟩ := mem_map.mp hl
      exact h name hname (hback ▸ hmem)
  rw [slashed, map_congr_left (fun c hc => if_neg (hchars c hc)), map_id']
  exact String.ofList_toList

/-! ### What the walker takes -/

section Taken

variable {ignores : List String → IgnoreMatch} {root : FilePath} {w w' : Worktree root}
  {rel : List String} {bytes : List UInt8} {n : FileNode}

theorem Worktree.mem_keys (h : w.tree.node (root ++ rel) = some n) :
    root ++ rel ∈ w.tree.nodes.keys := OrdMap.mem_keys.mpr ⟨n, h⟩

theorem Worktree.named_of_leaf (h : w.leaf rel ≠ none) : Named rel := by
  obtain ⟨n, hn⟩ := Option.ne_none_iff_exists'.mp h
  obtain ⟨hnode, hdir⟩ := Option.filter_eq_some_iff.mp hn
  refine ⟨?_, ?_⟩
  · rintro rfl
    rw [append_nil, w.dir] at hnode
    obtain rfl := Option.some.inj hnode
    exact absurd rfl (of_decide_eq_true hdir)
  · have hnames := w.names _ (w.mem_keys hnode) (prefix_append _ _)
    rw [drop_left] at hnames
    exact hnames

theorem takes_eq_some {p : FilePath} (h : takes ignores root (p, n) = some bytes) :
    n = .file bytes ∧ admits ignores (p.drop root.length) bytes.length = true ∧
      isIndexable bytes = true := by
  rw [takes] at h
  split at h
  · next b hb =>
    split_ifs at h with hok
    obtain rfl := Option.some.inj h
    obtain ⟨hadmits, hindexable⟩ := Bool.and_eq_true_iff.mp hok
    exact ⟨hb, hadmits, hindexable⟩
  · cases h

theorem Worktree.found_eq_some (h : w.found ignores rel = some bytes) :
    w.tree.node (root ++ rel) = some (.file bytes) ∧ admits ignores rel bytes.length = true ∧
      isIndexable bytes = true := by
  obtain ⟨n, hn, htakes⟩ := Option.bind_eq_some_iff.mp h
  obtain ⟨rfl, hadmits, hindexable⟩ := takes_eq_some htakes
  rw [drop_left] at hadmits
  exact ⟨hn, hadmits, hindexable⟩

theorem Worktree.found_of_node (h : w.tree.node (root ++ rel) = some (.file bytes))
    (hadmits : admits ignores rel bytes.length = true) (hindexable : isIndexable bytes = true) :
    w.found ignores rel = some bytes := by
  rw [found, h, Option.bind_some, takes]
  dsimp only
  rw [drop_left, hadmits, hindexable]
  rfl

theorem Worktree.leaf_of_found (h : w.found ignores rel = some bytes) :
    w.leaf rel = some (.file bytes) := by
  rw [leaf, (w.found_eq_some h).1]
  rfl

theorem Worktree.found_congr (h : w.leaf rel = w'.leaf rel) :
    w.found ignores rel = w'.found ignores rel := by
  have hfiles : ∀ {u u' : Worktree root}, u.leaf rel = u'.leaf rel → ∀ bytes,
      u.found ignores rel = some bytes → u'.found ignores rel = some bytes := by
    intro u u' hleaf bytes hfound
    obtain ⟨-, hadmits, hindexable⟩ := u.found_eq_some hfound
    have hnode := hleaf ▸ u.leaf_of_found hfound
    exact u'.found_of_node (Option.filter_eq_some_iff.mp hnode).1 hadmits hindexable
  exact Option.ext (fun bytes => ⟨hfiles h bytes, hfiles h.symm bytes⟩)

theorem mem_walked {x : String} :
    (x, bytes) ∈ (w.tree.nodes.entries.filter (fun e => root <+: e.1)).filterMap (fun e =>
        (takes ignores root e).map (fun bytes => (relDisplay (e.1.drop root.length), bytes))) ↔
      ∃ rel, x = relDisplay rel ∧ w.found ignores rel = some bytes := by
  rw [mem_filterMap]
  constructor
  · rintro ⟨⟨p, n⟩, he, htake⟩
    obtain ⟨hent, hroot⟩ := mem_filter.mp he
    obtain ⟨rel, rfl⟩ := of_decide_eq_true hroot
    obtain ⟨b, hb, heq⟩ := Option.map_eq_some_iff.mp htake
    obtain ⟨rfl, rfl⟩ := Prod.mk.inj heq
    refine ⟨rel, by rw [drop_left], ?_⟩
    have hnode : w.tree.node (root ++ rel) = some n := OrdMap.mem_entries.mp hent
    rw [Worktree.found, hnode, Option.bind_some]
    exact hb
  · rintro ⟨rel, rfl, hfound⟩
    obtain ⟨n, hn, htakes⟩ := Option.bind_eq_some_iff.mp hfound
    refine ⟨(root ++ rel, n), mem_filter.mpr ⟨OrdMap.mem_entries.mpr hn, ?_⟩, ?_⟩
    · exact decide_eq_true (prefix_append _ _)
    · rw [htakes, drop_left]
      rfl

theorem Worktree.Plain.relDisplay_eq (h : w.Plain)
    (hn : w.tree.node (root ++ rel) = some n) : relDisplay rel = relText rel := by
  have hplain := h _ (w.mem_keys hn) (prefix_append _ _)
  rw [drop_left] at hplain
  exact slashed_relText hplain

/-- **The walker takes the files its rules admit, under the texts of their paths.** -/
theorem find?_walkWorktree (h : w.Plain) (hrel : Named rel) :
    (walkWorktree ignores w).find? (relText rel) = w.found ignores rel := by
  rw [walkWorktree, OrdMap.find?_ofList]
  have hunique : ∀ b, (relText rel, b) ∈ ((w.tree.nodes.entries.filter (fun e => root <+: e.1)).filterMap
      (fun e => (takes ignores root e).map
        (fun bytes => (relDisplay (e.1.drop root.length), bytes)))).reverse →
      w.found ignores rel = some b := by
    intro b hb
    obtain ⟨rel', heq, hfound⟩ := mem_walked.mp (mem_reverse.mp hb)
    have hnode := (w.found_eq_some hfound).1
    have hnamed := w.named_of_leaf (by rw [w.leaf_of_found hfound]; exact Option.some_ne_none _)
    rw [h.relDisplay_eq hnode] at heq
    rw [relText_inj hrel hnamed heq]
    exact hfound
  cases hfound : w.found ignores rel with
  | none =>
    refine OrdMap.lookup_eq_none (fun e he hkey => ?_)
    have hsome := hunique e.2 (by rw [← hkey, Prod.eta]; exact he)
    rw [hfound] at hsome
    cases hsome
  | some bytes =>
    refine OrdMap.lookup_of_unique (mem_reverse.mpr (mem_walked.mpr ⟨rel, ?_, hfound⟩)) ?_
    · exact (h.relDisplay_eq (w.found_eq_some hfound).1).symm
    · intro b hb
      have hsome := hunique b hb
      rw [hfound] at hsome
      exact (Option.some.inj hsome).symm

theorem exists_of_walkWorktree (h : w.Plain) {x : String}
    (hx : (walkWorktree ignores w).find? x = some bytes) :
    ∃ rel, Named rel ∧ x = relText rel ∧ w.found ignores rel = some bytes := by
  rw [walkWorktree, OrdMap.find?_ofList] at hx
  have hmem := mem_reverse.mp (OrdMap.mem_of_lookup hx)
  obtain ⟨rel, rfl, hfound⟩ := mem_walked.mp hmem
  refine ⟨rel, ?_, h.relDisplay_eq (w.found_eq_some hfound).1, hfound⟩
  exact w.named_of_leaf (by rw [w.leaf_of_found hfound]; exact Option.some_ne_none _)

theorem Worktree.readPath_relText (hrel : Named rel)
    (h : w.tree.node (root ++ rel) = some (.file bytes)) : w.readPath (relText rel) = some bytes := by
  have hplace := FileTree.place_of_node h (fun target hl => by cases hl)
  rw [FileTree.place, map_append] at hplace
  rw [readPath, startsWith_relText hrel, pathParts_relText hrel, if_neg Bool.false_ne_true, hplace,
    Option.bind_some, FileTree.fileAt, h]

end Taken

end Retrieval

end Modbit
