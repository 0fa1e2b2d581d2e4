import Modbit.Lib.OrdMap
import Modbit.Lib.Text
import Mathlib.Data.List.Dedup
import Mathlib.Data.List.Sort
import Mathlib.Data.String.Basic

/-!
# The Merkle index

A repository is a map of paths to bytes.  The index holds the digest of every file and
of every directory, a directory's being that of the names and digests in it; the digest
of bytes is any function `sha`.  `build` computes all directories, deepest first, and
`applyChanges` the directories above the paths it is given.

The directory of a top-level file is the empty text, and so is its own directory.
-/

namespace Modbit

open Lib

namespace Merkle

/-! ### Paths -/

def dirOf (path : String) : String :=
  match Text.rsplitOnce '/' path.toList with
  | some (dir, _) => String.ofList dir
  | none => ""

/-- `path.rsplit('/').next()`. -/
def baseName (path : String) : String :=
  match Text.rsplitOnce '/' path.toList with
  | some (_, name) => String.ofList name
  | none => path

/-- The loop of `ancestor_chain`; a directory is shorter than what is in it, so the
length of the text bounds its turns. -/
def chainFrom : Nat → String → List String
  | 0, _ => []
  | n + 1, current => if current = "" then [] else current :: chainFrom n (dirOf current)

/-- A directory and those above it, nearest first, without the root. -/
def chain (dir : String) : List String := chainFrom dir.toList.length dir

/-- All ancestor directories of a path, nearest first. -/
def ancestorChain (path : String) : List String := chain (dirOf path)

def dirsAbove (path : String) : List String := ancestorChain path ++ [dirOf path]

def deepestFirst (dirs : List String) : List String :=
  (dirs.insertionSort (· ≤ ·)).dedup.reverse

/-! ### Digests -/

variable (sha : List UInt8 → String)

def asBytes (s : String) : List UInt8 := s.toByteArray.data.toList

def combine (dir : String) (children : List (String × String)) : String :=
  sha (asBytes dir ++ children.flatMap (fun c => 0 :: asBytes c.1 ++ 0 :: asBytes c.2))

/-- The order of pairs: by name, then by digest. -/
def pairOrder (a b : String × String) : Prop := a.1 < b.1 ∨ (a.1 = b.1 ∧ a.2 ≤ b.2)

instance : DecidableRel pairOrder := fun a b =>
  inferInstanceAs (Decidable (a.1 < b.1 ∨ (a.1 = b.1 ∧ a.2 ≤ b.2)))

/-- The entries of a map that lie directly in a directory, under their names. -/
def childrenIn (m : OrdMap String String) (dir : String) : List (String × String) :=
  (m.entries.filter (fun e => dirOf e.1 = dir)).map (fun e => (baseName e.1, e.2))

def computeDir (leaves dirs : OrdMap String String) (dir : String) : String :=
  combine sha dir ((childrenIn leaves dir ++ childrenIn dirs dir).insertionSort pairOrder)

/-! ### The index -/

structure MerkleIndex where
  leaves : OrdMap String String
  dirs : OrdMap String String
  revision : Nat

inductive Recomputed where
  | fileLeaf (path : String)
  | dirNode (dir : String)
  deriving DecidableEq

abbrev Files := OrdMap String (List UInt8)

def build (files : Files) (revision : Nat) : MerkleIndex :=
  let leaves := files.mapValues sha
  let dirs := deepestFirst (leaves.keys.flatMap dirsAbove)
  ⟨leaves, dirs.foldl (fun m dir => m.insert dir (computeDir sha leaves m dir)) .empty, revision⟩

def MerkleIndex.rootDigest (index : MerkleIndex) : String :=
  computeDir sha index.leaves index.dirs ""

/-- A call of `apply_changes`. -/
structure Change where
  changed : Files
  deleted : List String
  newRevision : Nat

def removeLeaf (st : OrdMap String String × List Recomputed) (path : String) :
    OrdMap String String × List Recomputed :=
  (st.1.erase path, if (st.1.find? path).isSome then st.2 ++ [.fileLeaf path] else st.2)

def changeLeaf (st : OrdMap String String × List Recomputed) (file : String × List UInt8) :
    OrdMap String String × List Recomputed :=
  let digest := sha file.2
  (st.1.insert file.1 digest,
    if st.1.find? file.1 = some digest then st.2 else st.2 ++ [.fileLeaf file.1])

def hasFiles (leaves : OrdMap String String) (dir : String) : Bool :=
  leaves.keys.any (fun p => dirOf p = dir)

def hasSubdirs (dirs : OrdMap String String) (dir : String) : Bool :=
  dirs.keys.any (fun d => d ≠ dir && dirOf d = dir)

/-- One turn of the loop over the touched directories: an emptied one is pruned. -/
def touchDir (leaves : OrdMap String String) (st : OrdMap String String × List Recomputed)
    (dir : String) : OrdMap String String × List Recomputed :=
  let digest := computeDir sha leaves st.1 dir
  if hasFiles leaves dir || hasSubdirs st.1 dir then
    if st.1.find? dir = some digest then st
    else (st.1.insert dir digest, st.2 ++ [.dirNode dir])
  else if (st.1.find? dir).isSome then (st.1.erase dir, st.2 ++ [.dirNode dir])
  else st

def Change.paths (c : Change) : List String := c.deleted ++ c.changed.keys

def MerkleIndex.applyChanges (index : MerkleIndex) (c : Change) :
    MerkleIndex × List Recomputed :=
  let removed := c.deleted.foldl removeLeaf (index.leaves, [])
  let changed := c.changed.entries.foldl (changeLeaf sha) removed
  let touched := deepestFirst (c.paths.flatMap dirsAbove)
  let settled := touched.foldl (touchDir sha changed.1) (index.dirs, changed.2)
  (⟨changed.1, settled.1, c.newRevision⟩, settled.2)

end Merkle

end Modbit
