import Mathlib.Data.List.TakeWhile
import Modbit.Lib.Text
import Modbit.Lib.Utf8

/-!
# Journals of one value a line

A journal holds one value on each line, as a text without line breaks.  A `Codec` is what is
asked of the text: a value is read back from it, it has no line breaks, and it is not blank.

`read` takes the lines of a file back to values, and fails where one of them is none.
`read_text` says that it reads a journal as it was written, and `read_text_append` what it
makes of a journal and one more piece of a line.
-/

namespace Modbit.Lib.Jsonl

open List

structure Codec (α : Type) where
  toText : α → List Char
  fromText : List Char → Option α
  fromText_toText : ∀ a, fromText (toText a) = some a
  plain : ∀ a, '\n' ∉ toText a ∧ '\r' ∉ toText a
  solid : ∀ a, ∃ c ∈ toText a, Text.isWhitespace c = false

variable {α : Type} (codec : Codec α)

def line (a : α) : List Char := codec.toText a ++ ['\n']

def text (as : List α) : List Char := (as.map codec.toText).flatMap (· ++ ['\n'])

def values (skip : List Char → Bool) (lines : List (List Char)) : Option (List α) :=
  (lines.filter (fun l => !skip l)).mapM codec.fromText

/-- A file as values; a file that is missing has none. -/
def read (skip : List Char → Bool) : Option (List UInt8) → Option (List α)
  | none => some []
  | some bytes => (Utf8.decode bytes).bind (fun t => values codec skip (Text.lines t))

theorem text_append (as bs : List α) : text codec (as ++ bs) = text codec as ++ text codec bs := by
  rw [text, map_append, flatMap_append]
  rfl

theorem text_concat (as : List α) (a : α) : text codec (as ++ [a]) = text codec as ++ line codec a := by
  rw [text_append]
  exact congrArg _ (append_nil _)

/-- Blank lines are skipped, as `trim` finds them. -/
def blank (l : List Char) : Bool := (Text.trimChars l).isEmpty

theorem blank_toText (a : α) : blank (codec.toText a) = false := by
  obtain ⟨c, hc, hwhite⟩ := codec.solid a
  have hdrop : ∀ l : List Char, c ∈ l → c ∈ l.dropWhile Text.isWhitespace := by
    intro l hl
    rw [← takeWhile_append_dropWhile (p := Text.isWhitespace) (l := l)] at hl
    rcases mem_append.mp hl with htake | hdrop
    · rw [mem_takeWhile_imp htake] at hwhite
      cases hwhite
    · exact hdrop
  have hmem : c ∈ Text.trimChars (codec.toText a) := by
    rw [Text.trimChars, Text.dropEndWhile, mem_reverse]
    exact hdrop _ (mem_reverse.mpr (hdrop _ hc))
  rw [blank]
  exact isEmpty_eq_false_iff.mpr (ne_nil_of_mem hmem)

theorem isEmpty_toText (a : α) : (codec.toText a).isEmpty = false := by
  obtain ⟨c, hc, -⟩ := codec.solid a
  exact isEmpty_eq_false_iff.mpr (ne_nil_of_mem hc)

variable {codec} {skip : List Char → Bool}

theorem values_append (hskip : ∀ a, skip (codec.toText a) = false) (as : List α)
    (lines : List (List Char)) :
    values codec skip (as.map codec.toText ++ lines) = (values codec skip lines).map (as ++ ·) := by
  induction as with
  | nil => exact Option.map_id'.symm
  | cons a as ih =>
    rw [values] at ih
    rw [map_cons, cons_append, values, filter_cons_of_pos (by rw [hskip]; rfl),
      mapM_cons, codec.fromText_toText, ih, values]
    cases List.mapM codec.fromText (lines.filter fun l => !skip l) with
    | none => rfl
    | some bs => rfl

/-- **A journal and one more piece of a line.** -/
theorem read_text_append (hskip : ∀ a, skip (codec.toText a) = false) (as : List α)
    {piece : List Char} (hpiece : '\n' ∉ piece) :
    read codec skip (some (Utf8.encode (text codec as ++ piece)))
      = (values codec skip (if piece = [] then [] else [piece])).map (as ++ ·) := by
  have hlines : Text.lines (text codec as ++ piece)
      = as.map codec.toText ++ if piece = [] then [] else [piece] := by
    refine Text.lines_unlines (fun l hl => ?_) hpiece
    obtain ⟨a, -, rfl⟩ := mem_map.mp hl
    exact codec.plain a
  rw [read, Utf8.decode_encode, Option.bind_some, hlines, values_append hskip]

/-- **A journal is read as it was written.** -/
theorem read_text (hskip : ∀ a, skip (codec.toText a) = false) (as : List α) :
    read codec skip (some (Utf8.encode (text codec as))) = some as := by
  have h := read_text_append hskip as (not_mem_nil : '\n' ∉ [])
  rw [append_nil, if_pos rfl] at h
  rw [h]
  exact congrArg some (append_nil as)

/-- The bytes of a journal with these values; a file that is missing is an empty journal. -/
def Holds (codec : Codec α) (file : Option (List UInt8)) (as : List α) : Prop :=
  file.getD [] = Utf8.encode (text codec as)

theorem holds_nil (codec : Codec α) : Holds codec none [] := rfl

theorem Holds.concat {file : Option (List UInt8)} {as : List α} (h : Holds codec file as) (a : α) :
    Holds codec (some (file.getD [] ++ Utf8.encode (line codec a))) (as ++ [a]) := by
  rw [Holds, Option.getD_some, h, text_concat, Utf8.encode_append]

theorem Holds.read {file : Option (List UInt8)} {as : List α} (h : Holds codec file as)
    (hskip : ∀ a, skip (codec.toText a) = false) : read codec skip file = some as := by
  cases file with
  | some bytes =>
    rw [Holds, Option.getD_some] at h
    rw [h]
    exact read_text hskip as
  | none =>
    have hread : Jsonl.read codec skip (some (Utf8.encode (text codec as))) = some as := read_text hskip as
    rw [← h] at hread
    exact hread

end Modbit.Lib.Jsonl
