import Modbit.Git.Porcelain
import Modbit.Lib.Output

/-!
# Diffs without context, and their hunks

`git diff -U0` prints a file at a time, its header and then its hunks, each with a header and the
lines that were removed and added.  `parseHunks` and `rejectPatch` take the text apart by what
its lines begin with; neither counts the lines a hunk's header announces.

Texts are lists of characters here, and what git prints are bytes.
-/

namespace Modbit

open Lib

namespace Git

/-! ### What git prints -/

def ascii (s : String) : List UInt8 := Utf8.encode s.toList

/-- A range of a hunk's header; a count of one is left out. -/
def range (start count : Nat) : List Char :=
  Nat.toDigits 10 start ++ if count = 1 then [] else ',' :: Nat.toDigits 10 count

/-- A hunk: lines without their ends, and whether the last one of a side has none. -/
structure PrintedHunk where
  oldStart : Nat
  newStart : Nat
  removed : List (List UInt8)
  added : List (List UInt8)
  removedOpen : Bool
  addedOpen : Bool
  /-- The line the hunk is under, cut and without white space at its end. -/
  heading : List UInt8
  changes : removed ≠ [] ∨ added ≠ []
  lines : ∀ l ∈ removed ++ added, (0x0A : UInt8) ∉ l
  opened : (removedOpen = true → removed ≠ []) ∧ (addedOpen = true → added ≠ [])
  headed : (0x0A : UInt8) ∉ heading ∧ ∀ b ∈ heading.getLast?, b ≠ 0x20 ∧ b ≠ 0x09 ∧ b ≠ 0x0D
  fits : newStart < 2 ^ 64

namespace PrintedHunk

variable (h : PrintedHunk)

def ranges : List Char :=
  "@@ -".toList ++ range h.oldStart h.removed.length ++ " +".toList
    ++ range h.newStart h.added.length ++ " @@".toList

def header : List UInt8 :=
  Utf8.encode h.ranges ++ if h.heading = [] then [] else 0x20 :: h.heading

def minus : List (List UInt8) := h.removed.map (0x2D :: ·)

def plus : List (List UInt8) := h.added.map (0x2B :: ·)

def content : List (List UInt8) := h.minus ++ h.plus

def noNewline : List UInt8 := ascii "\\ No newline at end of file"

def body : List (List UInt8) :=
  h.minus ++ (if h.removedOpen then [noNewline] else []) ++ h.plus
    ++ (if h.addedOpen then [noNewline] else [])

end PrintedHunk

inductive HeaderWord where
  | oldMode | newMode | deletedFileMode | newFileMode
  | copyFrom | copyTo | renameFrom | renameTo | similarityIndex | dissimilarityIndex
  | index | binaryFiles
  deriving DecidableEq

def HeaderWord.text : HeaderWord → String
  | .oldMode => "old mode "
  | .newMode => "new mode "
  | .deletedFileMode => "deleted file mode "
  | .newFileMode => "new file mode "
  | .copyFrom => "copy from "
  | .copyTo => "copy to "
  | .renameFrom => "rename from "
  | .renameTo => "rename to "
  | .similarityIndex => "similarity index "
  | .dissimilarityIndex => "dissimilarity index "
  | .index => "index "
  | .binaryFiles => "Binary files "

structure ExtendedHeader where
  word : HeaderWord
  value : List Char
  printable : ∀ c ∈ value, Printable c

def ExtendedHeader.line (e : ExtendedHeader) : List Char := e.word.text.toList ++ e.value

inductive FileStatus where
  | created | deleted | changed
  deriving DecidableEq

/-- A file of a diff; hunks are in the order of the new file. -/
structure PrintedFile where
  oldName : List UInt8
  newName : List UInt8
  status : FileStatus
  extended : List ExtendedHeader
  hunks : List PrintedHunk
  named : oldName ≠ [] ∧ newName ≠ []
  ordered : hunks.Pairwise (fun g h => g.newStart < h.newStart)

/-- A name after `a/` or `b/`, in quotes if it is unusual. -/
def label (side : String) (name : List UInt8) : List Char :=
  printName (side.toList.map (fun c => Fin.ofNat 256 c.toNat)
    ++ name.map (fun b => Fin.ofNat 256 b.toNat))

def pairLabel (l : List Char) : List Char := l ++ if ' ' ∈ l then ['\t'] else []

namespace PrintedFile

variable (f : PrintedFile)

def path : List UInt8 := if f.status = .deleted then f.oldName else f.newName

def oldLabel : List Char :=
  if f.status = .created then "/dev/null".toList else label "a/" f.oldName

def newLabel : List Char :=
  if f.status = .deleted then "/dev/null".toList else label "b/" f.newName

/-- The two lines that a file with hunks has before them. -/
def pair : List (List Char) :=
  ["--- ".toList ++ pairLabel f.oldLabel, "+++ ".toList ++ pairLabel f.newLabel]

def header : List (List Char) :=
  ("diff --git ".toList ++ label "a/" f.oldName ++ ' ' :: label "b/" f.newName)
    :: f.extended.map ExtendedHeader.line ++ if f.hunks = [] then [] else f.pair

def lines : List (List UInt8) :=
  f.header.map Utf8.encode ++ f.hunks.flatMap (fun h => h.header :: h.body)

end PrintedFile

def printDiff (files : List PrintedFile) : List UInt8 :=
  Output.unlines (files.flatMap PrintedFile.lines)

/-! ### Taking it apart -/

structure DiffHunk where
  path : List Char
  newStart : Nat
  lines : List (List Char)

/-- `parse` to a `usize` of 64 bits. -/
def parseUsize (digits : List Char) : Option Nat :=
  if digits ≠ [] ∧ Nat.ofDigitChars 10 digits 0 < 2 ^ 64 then some (Nat.ofDigitChars 10 digits 0)
  else none

def hunkNewStart (header : List Char) : Option Nat :=
  ((header.splitOn '+')[1]?).bind (fun plus => parseUsize (plus.takeWhile Char.isDigit))

/-- The variables of the loop in `parse_hunks`. -/
structure HunkParse where
  hunks : List DiffHunk
  path : List Char
  newStart : Nat
  lines : List (List Char)
  inHunk : Bool

namespace HunkParse

def start : HunkParse := ⟨[], [], 0, [], false⟩

variable (s : HunkParse)

/-- The hunk that is under way, if it has a path and lines; else its lines stay. -/
def push : HunkParse :=
  if s.inHunk = true ∧ s.path ≠ [] ∧ s.lines ≠ [] then
    { s with hunks := s.hunks ++ [⟨s.path, s.newStart, s.lines⟩], lines := [] }
  else s

def read (line : List Char) : HunkParse :=
  if "diff --git ".toList <+: line then { s.push with inHunk := false, path := [] }
  else if "+++ b/".toList <+: line then { s with path := line.drop 6 }
  else if "@@ -".toList <+: line then
    { s.push with newStart := (hunkNewStart line).getD 0, inHunk := true }
  else if s.inHunk = true ∧ (['+'] <+: line ∨ ['-'] <+: line) then
    { s with lines := s.lines ++ [line] }
  else s

end HunkParse

def parseHunks (diffText : List Char) : List DiffHunk :=
  ((Text.lines diffText).foldl HunkParse.read .start).push.hunks

/-- The variables of the loop in `reject_hunk`. -/
structure HunkBlocks where
  fileHeader : List Char
  blocks : List (List Char × List (List Char))

def isFileHeader (line : List Char) : Bool :=
  "diff --git ".toList.isPrefixOf line || "index ".toList.isPrefixOf line
    || "--- ".toList.isPrefixOf line || "+++ ".toList.isPrefixOf line

def HunkBlocks.read (s : HunkBlocks) (line : List Char) : HunkBlocks :=
  if isFileHeader line = true then
    if s.blocks = [] then { s with fileHeader := s.fileHeader ++ line ++ ['\n'] } else s
  else if "@@".toList <+: line then { s with blocks := s.blocks ++ [(line, [])] }
  else
    match s.blocks.getLast? with
    | none => s
    | some (header, body) => { s with blocks := s.blocks.dropLast ++ [(header, body ++ [line])] }

/-- The patch that `reject_hunk` has git apply in reverse, if there is a diff at all. -/
def rejectPatch (path : List Char) (newStart : Nat) (text : List Char) :
    Except String (Option (List Char)) :=
  if text = [] then .ok none
  else
    let s := (Text.lines text).foldl HunkBlocks.read ⟨[], []⟩
    match s.blocks.find? (fun b => hunkNewStart b.1 = some newStart) with
    | none =>
      .error ("no hunk starts at line " ++ toString newStart ++ " in " ++ String.ofList path)
    | some (header, body) =>
      .ok (some (s.fileHeader ++ header ++ '\n' :: ['\n'].intercalate body ++ ['\n']))

end Git

end Modbit
