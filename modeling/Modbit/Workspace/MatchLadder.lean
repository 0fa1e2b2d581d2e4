import Modbit.Workspace.ChangeEngine

/-!
# What the match ladder answers

A position of some old lines is stated without an index: the file is what is before, the
lines that are found and what is after (`StandsAt`).  They are found verbatim or up to
white space, by what is compared of a line.

`Ladder` says which answer the ladder has by the positions of the two tiers alone.
`matchLadder_ladder_iff` says when that is so: the old lines are at most as many as the
lines of the file.  When they are more the ladder panics, `starts` being `0..=0` and the
slice of the one start too long.
-/

namespace Modbit

namespace Workspace

open List

/-! ### Positions -/

section Positions

variable {α β : Type}

/-- From `start` on stand lines of which `key` makes what it makes of the old ones. -/
def StandsAt (key : α → β) (lines oldLines : List α) (start : Nat) : Prop :=
  ∃ before found after, lines = before ++ found ++ after ∧ before.length = start ∧
    found.map key = oldLines.map key

def Sole (P : Nat → Prop) (start : Nat) : Prop := P start ∧ ∀ other, P other → other = start

def Several (P : Nat → Prop) : Prop := ∃ start other, P start ∧ P other ∧ start ≠ other

variable {key : α → β} {lines oldLines : List α} {start : Nat}

theorem StandsAt.fits (h : StandsAt key lines oldLines start) :
    start + oldLines.length ≤ lines.length := by
  obtain ⟨before, found, after, rfl, rfl, hkey⟩ := h
  have hlength : found.length = oldLines.length := by simpa using congrArg List.length hkey
  simp only [length_append]
  omega

theorem standsAt_iff_slice :
    StandsAt key lines oldLines start ↔
      start + oldLines.length ≤ lines.length ∧
        ((lines.map key).drop start).take oldLines.length = oldLines.map key := by
  constructor
  · intro h
    refine ⟨h.fits, ?_⟩
    obtain ⟨before, found, after, rfl, rfl, hkey⟩ := h
    have hlength : oldLines.length = (found.map key).length := by
      simpa using (congrArg List.length hkey).symm
    rw [map_append, map_append, append_assoc,
      drop_left' (by rw [length_map]), hlength, take_left, hkey]
  · rintro ⟨hfits, hslice⟩
    refine ⟨lines.take start, (lines.drop start).take oldLines.length,
      (lines.drop start).drop oldLines.length, ?_, ?_, ?_⟩
    · rw [append_assoc, take_append_drop, take_append_drop]
    · rw [length_take]
      omega
    · rw [← hslice, map_take, map_drop]

end Positions

/-- A list without repetitions by what is in it: no entry, one, or more. -/
inductive Count (P : Nat → Prop) : List Nat → Prop where
  | never : (∀ start, ¬ P start) → Count P []
  | once {start : Nat} : Sole P start → Count P [start]
  | more {start other : Nat} {rest : List Nat} : Several P → Count P (start :: other :: rest)

variable {P : Nat → Prop}

theorem count_of_mem_iff {starts : List Nat} (hnodup : starts.Nodup)
    (hmem : ∀ start, start ∈ starts ↔ P start) : Count P starts := by
  match starts, hnodup with
  | [], _ =>
    exact .never (fun start h => not_mem_nil ((hmem start).mpr h))
  | [start], _ =>
    exact .once ⟨(hmem start).mp (mem_singleton.mpr rfl),
      fun other h => mem_singleton.mp ((hmem other).mpr h)⟩
  | start :: other :: rest, hnodup =>
    have hne : start ≠ other := fun h =>
      (nodup_cons.mp hnodup).1 (h ▸ mem_cons_self)
    exact .more ⟨start, other, (hmem start).mp mem_cons_self,
      (hmem other).mp (mem_cons_of_mem _ mem_cons_self), hne⟩

/-! ### The starts the ladder collects -/

variable {lines oldLines : List (List Char)} {anchor : Nat}

theorem mem_occurrences (key : List Char → List Char) (hfits : oldLines.length ≤ lines.length)
    (start : Nat) :
    start ∈ occurrences (lines.map key) (oldLines.map key) ↔
      StandsAt key lines oldLines start := by
  rw [occurrences, mem_filter, mem_range, standsAt_iff_slice, decide_eq_true_eq,
    length_map, length_map]
  refine and_congr_left (fun _ => ?_)
  omega

theorem count_occurrences (key : List Char → List Char)
    (hfits : oldLines.length ≤ lines.length) :
    Count (StandsAt key lines oldLines) (occurrences (lines.map key) (oldLines.map key)) :=
  count_of_mem_iff (nodup_range.filter _) (mem_occurrences key hfits)

/-! ### The answers -/

abbrev Verbatim (lines oldLines : List (List Char)) : Nat → Prop := StandsAt id lines oldLines

abbrev Alike (lines oldLines : List (List Char)) : Nat → Prop :=
  StandsAt whitespaceNormalized lines oldLines

/-- The ladder answers, and its answer is the one of the first tier that matches. -/
structure Ladder (lines : List (List Char)) (anchor : Nat) (oldLines : List (List Char)) :
    Prop where
  answers : matchLadder lines anchor oldLines ≠ none
  exact : ∀ start, matchLadder lines anchor oldLines = some (.ok (start, .exact)) ↔
    Sole (Verbatim lines oldLines) start
  remap : ∀ start, matchLadder lines anchor oldLines = some (.ok (start, .whitespaceRemap)) ↔
    (∀ other, ¬ Verbatim lines oldLines other) ∧ Sole (Alike lines oldLines) start
  ambiguous : matchLadder lines anchor oldLines = some (.error (.ambiguous "" anchor)) ↔
    Several (Verbatim lines oldLines) ∨
      (∀ other, ¬ Verbatim lines oldLines other) ∧ Several (Alike lines oldLines)
  noMatch : matchLadder lines anchor oldLines = some (.error (.noMatch "" anchor)) ↔
    (∀ start, ¬ Verbatim lines oldLines start) ∧ ∀ start, ¬ Alike lines oldLines start

variable {start : Nat}

theorem Sole.occurs (h : Sole P start) : ¬ ∀ other, ¬ P other :=
  fun hnone => hnone start h.1

theorem Several.occurs (h : Several P) : ¬ ∀ other, ¬ P other :=
  fun hnone => let ⟨start, _, hstart, _⟩ := h; hnone start hstart

theorem Sole.not_several (h : Sole P start) : ¬ Several P :=
  fun ⟨one, two, hone, htwo, hne⟩ => hne ((h.2 one hone).trans (h.2 two htwo).symm)

theorem not_several_of_never (h : ∀ start, ¬ P start) : ¬ Several P :=
  fun ⟨one, _, hone, _⟩ => h one hone

theorem not_sole_of_never (h : ∀ start, ¬ P start) : ¬ Sole P start :=
  fun hsole => h start hsole.1

theorem ok_eq_iff_sole {start other : Nat} {tier : MatchTier} (h : Sole P start) :
    (some (.ok (start, tier)) : Outcome (Nat × MatchTier)) = some (.ok (other, tier)) ↔
      Sole P other := by
  constructor
  · intro heq
    cases heq
    exact h
  · intro hother
    rw [h.2 other hother.1]

theorem ladder_of_exact (hmatch : matchLadder lines anchor oldLines = some (.ok (start, .exact)))
    (hsole : Sole (Verbatim lines oldLines) start) : Ladder lines anchor oldLines where
  answers := by rw [hmatch]; exact Option.some_ne_none _
  exact other := by rw [hmatch]; exact ok_eq_iff_sole hsole
  remap other := by
    rw [hmatch]
    exact iff_of_false (fun h => by cases h) (fun h => hsole.occurs h.1)
  ambiguous := by
    rw [hmatch]
    refine iff_of_false (fun h => by cases h) ?_
    rintro (hmore | ⟨hnone, -⟩)
    · exact hsole.not_several hmore
    · exact hsole.occurs hnone
  noMatch := by
    rw [hmatch]
    exact iff_of_false (fun h => by cases h) (fun h => hsole.occurs h.1)

theorem ladder_of_remap
    (hmatch : matchLadder lines anchor oldLines = some (.ok (start, .whitespaceRemap)))
    (hnone : ∀ other, ¬ Verbatim lines oldLines other)
    (hsole : Sole (Alike lines oldLines) start) : Ladder lines anchor oldLines where
  answers := by rw [hmatch]; exact Option.some_ne_none _
  exact other := by
    rw [hmatch]
    exact iff_of_false (fun h => by cases h) (not_sole_of_never hnone)
  remap other := by
    rw [hmatch, ok_eq_iff_sole hsole]
    exact (and_iff_right hnone).symm
  ambiguous := by
    rw [hmatch]
    refine iff_of_false (fun h => by cases h) ?_
    rintro (hmore | ⟨-, hmore⟩)
    · exact not_several_of_never hnone hmore
    · exact hsole.not_several hmore
  noMatch := by
    rw [hmatch]
    exact iff_of_false (fun h => by cases h) (fun h => hsole.occurs h.2)

theorem ladder_of_ambiguous
    (hmatch : matchLadder lines anchor oldLines = some (.error (.ambiguous "" anchor)))
    (hmore : Several (Verbatim lines oldLines) ∨
      (∀ other, ¬ Verbatim lines oldLines other) ∧ Several (Alike lines oldLines)) :
    Ladder lines anchor oldLines where
  answers := by rw [hmatch]; exact Option.some_ne_none _
  exact other := by
    rw [hmatch]
    refine iff_of_false (fun h => by cases h) (fun hsole => ?_)
    rcases hmore with hmore | ⟨hnone, -⟩
    · exact hsole.not_several hmore
    · exact hsole.occurs hnone
  remap other := by
    rw [hmatch]
    refine iff_of_false (fun h => by cases h) (fun ⟨hnone, hsole⟩ => ?_)
    rcases hmore with hmore | ⟨-, hmore⟩
    · exact hmore.occurs hnone
    · exact hsole.not_several hmore
  ambiguous := by
    rw [hmatch]
    exact iff_of_true rfl hmore
  noMatch := by
    rw [hmatch]
    refine iff_of_false (fun h => by cases h) (fun ⟨hnone, hnone'⟩ => ?_)
    rcases hmore with hmore | ⟨-, hmore⟩
    · exact hmore.occurs hnone
    · exact hmore.occurs hnone'

theorem ladder_of_noMatch
    (hmatch : matchLadder lines anchor oldLines = some (.error (.noMatch "" anchor)))
    (hnone : ∀ start, ¬ Verbatim lines oldLines start)
    (hnone' : ∀ start, ¬ Alike lines oldLines start) : Ladder lines anchor oldLines where
  answers := by rw [hmatch]; exact Option.some_ne_none _
  exact other := by
    rw [hmatch]
    exact iff_of_false (fun h => by cases h) (not_sole_of_never hnone)
  remap other := by
    rw [hmatch]
    exact iff_of_false (fun h => by cases h) (fun h => not_sole_of_never hnone' h.2)
  ambiguous := by
    rw [hmatch]
    refine iff_of_false (fun h => by cases h) ?_
    rintro (hmore | ⟨-, hmore⟩)
    · exact not_several_of_never hnone hmore
    · exact not_several_of_never hnone' hmore
  noMatch := by
    rw [hmatch]
    exact iff_of_true rfl ⟨hnone, hnone'⟩

theorem ladder_of_fits (hold : oldLines ≠ []) (hfits : oldLines.length ≤ lines.length) :
    Ladder lines anchor oldLines := by
  have hverbatim := count_occurrences id hfits
  have halike := count_occurrences whitespaceNormalized hfits
  rw [map_id, map_id] at hverbatim
  have hmatch := matchLadder.eq_def lines anchor oldLines
  rw [if_neg hold, if_neg (Nat.not_lt.mpr hfits)] at hmatch
  -- The tiers one after the other, each by what it has collected.
  generalize occurrences lines oldLines = starts at hverbatim hmatch
  cases hverbatim with
  | once hsole => exact ladder_of_exact hmatch hsole
  | more hmore => exact ladder_of_ambiguous hmatch (Or.inl hmore)
  | never hnone =>
    generalize occurrences (lines.map whitespaceNormalized) (oldLines.map whitespaceNormalized)
      = starts at halike hmatch
    cases halike with
    | once hsole => exact ladder_of_remap hmatch hnone hsole
    | more hmore => exact ladder_of_ambiguous hmatch (Or.inr ⟨hnone, hmore⟩)
    | never hnone' => exact ladder_of_noMatch hmatch hnone hnone'

/-- **The ladder answers by the positions of its two tiers exactly when there are not more
old lines than lines.** -/
theorem matchLadder_ladder_iff (hold : oldLines ≠ []) :
    Ladder lines anchor oldLines ↔ oldLines.length ≤ lines.length := by
  constructor
  · intro h
    refine Nat.not_lt.mp (fun hlong => h.answers ?_)
    rw [matchLadder, if_neg hold, if_pos hlong]
  · exact ladder_of_fits hold

/-- In a file of one line a line is found in spite of its indentation. -/
theorem matchLadder_ladder_sample :
    ["x".toList] ≠ [] ∧
      Ladder ["  x".toList] 1 ["x".toList] :=
  ⟨by decide, (matchLadder_ladder_iff (by decide)).mpr (by decide)⟩

/-- Two old lines, and one line in the file. -/
theorem matchLadder_panics :
    ¬ ∀ (lines : List (List Char)) (anchor : Nat) (oldLines : List (List Char)),
      oldLines ≠ [] → Ladder lines anchor oldLines := by
  intro h
  exact (h ["a".toList] 1 ["a".toList, "b".toList] (by decide)).answers (by decide)

end Workspace

end Modbit
