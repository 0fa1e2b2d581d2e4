import Modbit.Lib.Terminated
import Modbit.Workspace.Service

/-!
# What a patch writes

A file is its lines with their ends, `rawLines`; a hunk takes its old lines away and puts its new
ones there, each ended by a newline.  `patched` makes the edits of all hunks at once, and `Patches`
says that this is what `apply_patch` writes, in whatever order the hunks come, and that a hunk that
is not found fails the call and leaves the service as it was.

`apply_patch` works on texts without their ends and ends every one anew.  `patches_iff` says what
that comes to, for hunks that are `Separate`: the file is patched exactly when every line outside
the hunks is valid UTF-8 ended by a newline alone, and something is left of the file.
-/

namespace Modbit

open Lib List

namespace Workspace

namespace WorkspaceFileService

/-! ### Lines and their ends -/

def rawLines (bytes : List UInt8) : List (List UInt8) := terminated 0x0A bytes

/-- A line of a file as `lines` has it. -/
def lineText (raw : List UInt8) : List Char :=
  if raw.getLast? = some 0x0A then Text.stripCr (Utf8.lossy raw).dropLast else Utf8.lossy raw

def endedLine (text : List Char) : List UInt8 := Utf8.encode text ++ [0x0A]

/-- A line that is UTF-8 and ended by a newline alone. -/
def KeptWhole (raw : List UInt8) : Prop :=
  ∃ text : List Char, raw = endedLine text ∧ text.getLast? ≠ some '\r'

theorem lineText_ended (raw : List UInt8) :
    lineText (raw ++ [0x0A]) = Text.stripCr (Utf8.lossy raw) := by
  have hlast : (raw ++ [(0x0A : UInt8)]).getLast? = some 0x0A := getLast?_concat
  rw [lineText, if_pos hlast, Utf8.lossy_ended]
  exact congrArg Text.stripCr dropLast_concat

theorem lineText_unended {raw : List UInt8} (h : (0x0A : UInt8) ∉ raw) :
    lineText raw = Utf8.lossy raw :=
  if_neg (fun hlast => h (mem_of_getLast? hlast))

theorem linesOf_flatten {pieces : List (List UInt8)} (h : Terminated 0x0A pieces) :
    linesOf pieces.flatten = pieces.map lineText := by
  rw [linesOf]
  induction h with
  | nil => rfl
  | @last piece hne hnot =>
    rw [flatten_singleton, map_singleton, lineText_unended hnot,
      Text.lines_last (Utf8.newline_not_mem_lossy hnot), if_neg (Utf8.lossy_ne_nil hne)]
  | @cons piece pieces hnot _ ih =>
    rw [flatten_cons, append_assoc, singleton_append, Utf8.lossy_ended,
      Text.lines_line (Utf8.newline_not_mem_lossy hnot), ih, map_cons, lineText_ended]

theorem terminated_rawLines (bytes : List UInt8) : Terminated 0x0A (rawLines bytes) :=
  terminated_spec bytes

theorem linesOf_eq (bytes : List UInt8) : linesOf bytes = (rawLines bytes).map lineText := by
  have h := linesOf_flatten (terminated_rawLines bytes)
  rwa [rawLines, flatten_terminated] at h

theorem newline_not_mem_lineText {raw : List UInt8} (h : raw ∈ rawLines bytes) :
    '\n' ∉ lineText raw := by
  rcases (terminated_rawLines bytes).piece h with ⟨hnot, -⟩ | ⟨piece, hnot, rfl⟩
  · rw [lineText_unended hnot]
    exact Utf8.newline_not_mem_lossy hnot
  · rw [lineText_ended]
    exact Text.not_mem_stripCr (Utf8.newline_not_mem_lossy hnot)

theorem endedLine_lineText_iff {raw : List UInt8} (h : raw ∈ rawLines bytes) :
    endedLine (lineText raw) = raw ↔ KeptWhole raw := by
  constructor
  · intro hback
    refine ⟨lineText raw, hback.symm, fun hlast => ?_⟩
    rcases (terminated_rawLines bytes).piece h with ⟨hnot, -⟩ | ⟨piece, -, rfl⟩
    · exact hnot (hback ▸ mem_append_right _ mem_cons_self)
    · rw [lineText_ended] at hback hlast
      have hpiece := congrArg Utf8.lossy (append_cancel_right hback)
      rw [Utf8.lossy_encode] at hpiece
      -- stripping has done nothing, so the text would have been stripped
      rw [Text.stripCr] at hpiece
      split_ifs at hpiece with hcr
      · have hlen := congrArg List.length hpiece
        rw [length_dropLast] at hlen
        have hpos := length_pos_of_mem (mem_of_getLast? hcr)
        omega
      · rw [Text.stripCr, if_neg hcr] at hlast
        exact hcr hlast
  · rintro ⟨text, rfl, hlast⟩
    have hread : Utf8.lossy (Utf8.encode text) = text := Utf8.lossy_encode text
    rw [endedLine, endedLine, lineText_ended, hread, Text.stripCr, if_neg hlast]

/-! ### The lines of a patched file -/

section Lines

variable {original : List UInt8} {hunks : List PatchHunk} {hunk : PatchHunk}
  {lines : List (List Char)} {path : String}

/-- The old lines of a hunk are there, from the line on at which it is anchored. -/
def Found (lines : List (List Char)) (hunk : PatchHunk) : Prop :=
  1 ≤ hunk.anchorLine ∧ hunk.anchorLine ≤ lines.length ∧
    (lines.drop (hunk.anchorLine - 1)).take hunk.oldLines.length = hunk.oldLines

instance : Decidable (Found lines hunk) := inferInstanceAs (Decidable (_ ∧ _))

/-- The lines of two hunks have none in common. -/
def Disjoint (g h : PatchHunk) : Prop :=
  g.anchorLine + g.oldLines.length ≤ h.anchorLine ∨ h.anchorLine + h.oldLines.length ≤ g.anchorLine

instance : DecidableRel Disjoint := fun _ _ => inferInstanceAs (Decidable (_ ∨ _))

/-- The hunks start at different lines and do not overlap. -/
def HunksApart (hunks : List PatchHunk) : Prop :=
  hunks.Pairwise (fun g h => g.anchorLine ≠ h.anchorLine) ∧ hunks.Pairwise Disjoint

instance : Decidable (HunksApart hunks) := inferInstanceAs (Decidable (_ ∧ _))

def textEdit (hunk : PatchHunk) : Edit (List Char) :=
  ⟨hunk.anchorLine - 1, hunk.oldLines.length, hunk.newLines⟩

theorem Found.fits (h : Found lines hunk) : (textEdit hunk).Fits lines.length := by
  obtain ⟨hpos, hle, htake⟩ := h
  have hlen := congrArg List.length htake
  rw [length_take, length_drop] at hlen
  exact ⟨by dsimp only [textEdit]; omega, by dsimp only [textEdit]; omega⟩

theorem patchLines_cons (path : String) (hunk : PatchHunk) (hunks : List PatchHunk)
    (lines : List (List Char)) :
    patchLines path (hunk :: hunks) lines =
      if Found lines hunk then patchLines path hunks ((textEdit hunk).apply lines)
      else .error (.patchMismatch path hunk.anchorLine) := by
  rw [patchLines]
  by_cases hfound : Found lines hunk
  · obtain ⟨hpos, hle, htake⟩ := hfound
    have hstop : hunk.anchorLine - 1 + hunk.oldLines.length ≤ lines.length :=
      (Found.fits ⟨hpos, hle, htake⟩).2
    rw [if_pos (show Found lines hunk from ⟨hpos, hle, htake⟩), if_neg (by omega)]
    rw [if_neg (Nat.not_lt.mpr hstop), if_neg (not_not_intro htake)]
    rfl
  · rw [if_neg hfound]
    dsimp only
    split_ifs with hanchor hlong hdiffer
    · rfl
    · rfl
    · rfl
    · exact absurd ⟨by omega, by omega, not_not.mp hdiffer⟩ hfound

/-- A hunk that starts and ends before another one. -/
def Beneath (h g : PatchHunk) : Prop :=
  h.anchorLine < g.anchorLine ∧ h.anchorLine + h.oldLines.length ≤ g.anchorLine

theorem slice_append {start length cut : Nat} (hcut : start + length ≤ cut)
    (hle : cut ≤ lines.length) (rest : List (List Char)) :
    ((lines.take cut ++ rest).drop start).take length = (lines.drop start).take length := by
  have hlen : (lines.take cut).length = cut := by rw [length_take, Nat.min_eq_left hle]
  rw [drop_append_of_le_length (by omega),
    take_append_of_le_length (by rw [length_drop]; omega), drop_take,
    take_take, Nat.min_eq_left (by omega)]

theorem found_apply_iff {g h : PatchHunk} (hbeneath : Beneath h g) (hg : Found lines g) :
    Found ((textEdit g).apply lines) h ↔ Found lines h := by
  obtain ⟨hlt, hend⟩ := hbeneath
  obtain ⟨hpos, hle, -⟩ := hg
  have hcut : g.anchorLine - 1 ≤ lines.length := by omega
  have happly : (textEdit g).apply lines = lines.take (g.anchorLine - 1) ++
      (g.newLines ++ lines.drop (g.anchorLine - 1 + g.oldLines.length)) :=
    append_assoc _ _ _
  have hlength : g.anchorLine - 1 ≤ ((textEdit g).apply lines).length := by
    rw [happly, length_append, length_take]
    omega
  by_cases hzero : 1 ≤ h.anchorLine
  · rw [Found, Found, happly, slice_append (by omega) hcut, ← happly]
    have hin : h.anchorLine ≤ ((textEdit g).apply lines).length ↔ h.anchorLine ≤ lines.length :=
      iff_of_true (by omega) (by omega)
    rw [hin]
  · exact iff_of_false (fun hfound => hzero hfound.1) (fun hfound => hzero hfound.1)

/-- **Hunks that are all found are applied.** -/
theorem patchLines_of_found (hunks : List PatchHunk) : ∀ lines : List (List Char),
    hunks.Pairwise (fun g h => Beneath h g) → (∀ h ∈ hunks, Found lines h) →
    patchLines path hunks lines
      = .ok ((hunks.map textEdit).foldl (fun lines e => e.apply lines) lines) := by
  induction hunks with
  | nil => exact fun lines _ _ => rfl
  | cons g hunks ih =>
    intro lines hpair hfound
    obtain ⟨hbeneath, hpair⟩ := pairwise_cons.mp hpair
    have hg := hfound g mem_cons_self
    rw [patchLines_cons, if_pos hg, ih _ hpair (fun h hh =>
      (found_apply_iff (hbeneath h hh) hg).mpr (hfound h (mem_cons_of_mem g hh)))]
    rfl

/-- The hunks that are tried: those up to the first one that is not found. -/
def reached (lines : List (List Char)) : List PatchHunk → List PatchHunk
  | [] => []
  | hunk :: hunks => hunk :: if Found lines hunk then reached lines hunks else []

theorem reached_sublist (lines : List (List Char)) (hunks : List PatchHunk) :
    (reached lines hunks).Sublist hunks := by
  induction hunks with
  | nil => exact List.Sublist.refl _
  | cons hunk hunks ih =>
    rw [reached]
    split_ifs
    · exact ih.cons_cons hunk
    · exact (nil_sublist hunks).cons_cons hunk

/-- **One that is not found is refused,** whichever have been applied before. -/
theorem patchLines_of_not_found (lines : List (List Char)) (hunks : List PatchHunk) :
    ∀ now : List (List Char), (reached lines hunks).Pairwise (fun g h => Beneath h g) →
    (∀ h ∈ reached lines hunks, Found now h ↔ Found lines h) → (∃ h ∈ hunks, ¬ Found lines h) →
    ∃ e, patchLines path hunks now = .error e := by
  induction hunks with
  | nil =>
    rintro now - - ⟨h, hh, -⟩
    cases hh
  | cons g hunks ih =>
    rintro now hpair hsame ⟨h, hh, hmissing⟩
    rw [patchLines_cons]
    rw [reached] at hpair hsame
    by_cases hg : Found now g
    · have hfound := (hsame g mem_cons_self).mp hg
      rw [if_pos hfound] at hpair hsame
      obtain ⟨hbeneath, hpair⟩ := pairwise_cons.mp hpair
      have hrest : h ∈ hunks :=
        (mem_cons.mp hh).resolve_left (fun heq => hmissing (heq ▸ hfound))
      rw [if_pos hg]
      exact ih _ hpair (fun k hk => (found_apply_iff (hbeneath k hk) hg).trans
        (hsame k (mem_cons_of_mem g hk))) ⟨h, hrest, hmissing⟩
    · rw [if_neg hg]
      exact ⟨_, rfl⟩

theorem Disjoint.symm {g h : PatchHunk} (hdisjoint : Disjoint g h) : Disjoint h g :=
  Or.symm hdisjoint

theorem perm_bottomUp (hunks : List PatchHunk) : (bottomUp hunks).Perm hunks :=
  perm_insertionSort _ hunks

theorem HunksApart.perm {hunks' : List PatchHunk} (h : HunksApart hunks) (hperm : hunks'.Perm hunks) :
    HunksApart hunks' :=
  ⟨(hperm.pairwise_iff (fun hne => Ne.symm hne)).mpr h.1,
    (hperm.pairwise_iff Disjoint.symm).mpr h.2⟩

theorem sorted_bottomUp (hunks : List PatchHunk) :
    (bottomUp hunks).Pairwise (fun a b => b.anchorLine ≤ a.anchorLine) := by
  have : Std.Total (fun a b : PatchHunk => b.anchorLine ≤ a.anchorLine) :=
    ⟨fun a b => Nat.le_total _ _⟩
  have : IsTrans PatchHunk (fun a b : PatchHunk => b.anchorLine ≤ a.anchorLine) :=
    ⟨fun a b c hab hbc => Nat.le_trans hbc hab⟩
  exact pairwise_insertionSort _ hunks

theorem HunksApart.beneath (hsorted : hunks.Pairwise (fun a b => b.anchorLine ≤ a.anchorLine))
    (h : HunksApart hunks) : hunks.Pairwise (fun g h => Beneath h g) := by
  refine ((hsorted.and h.1).and h.2).imp ?_
  rintro g h ⟨⟨hle, hne⟩, hdisjoint⟩
  refine ⟨by omega, ?_⟩
  rcases hdisjoint with hgh | hhg
  · omega
  · exact hhg

/-- **The lines of a patched file are all hunks at once, in any order of the hunks.** -/
theorem patchLines_bottomUp {hunks' : List PatchHunk} (hperm : hunks'.Perm hunks)
    (hapart : HunksApart hunks) (hfound : ∀ h ∈ hunks, Found lines h) :
    patchLines path (bottomUp hunks') lines = .ok (replaceAll (hunks.map textEdit) lines) := by
  have hall : (bottomUp hunks').Perm hunks := (perm_bottomUp hunks').trans hperm
  have hfound' : ∀ h ∈ bottomUp hunks', Found lines h := fun h hh =>
    hfound h (hall.mem_iff.mp hh)
  have hbeneath := (hapart.perm hall).beneath (sorted_bottomUp hunks')
  have hbelow : ((bottomUp hunks').map textEdit).Pairwise (fun e f => f.Below e) := by
    refine pairwise_map.mpr (hbeneath.imp_of_mem ?_)
    rintro g h - hh ⟨hlt, hend⟩
    have hpos := (hfound' h hh).1
    exact ⟨by dsimp only [textEdit]; omega, by dsimp only [textEdit]; omega⟩
  have hfits : ∀ e ∈ (bottomUp hunks').map textEdit, e.Fits lines.length := by
    intro e he
    obtain ⟨h, hh, rfl⟩ := mem_map.mp he
    exact (hfound' h hh).fits
  have hstart : ((bottomUp hunks').map textEdit).Pairwise (fun e f => e.start ≠ f.start) :=
    hbelow.imp (fun hbelow => Nat.ne_of_gt hbelow.1)
  rw [patchLines_of_found _ lines hbeneath hfound', foldl_apply _ lines hbelow hfits,
    replaceAll_perm (hall.map textEdit) hstart]

end Lines

/-! ### The bytes of a patched file -/

section Bytes

variable {original : List UInt8} {hunks : List PatchHunk}

def byteEdit (hunk : PatchHunk) : Edit (List UInt8) := (textEdit hunk).map endedLine

def patched (original : List UInt8) (hunks : List PatchHunk) : List UInt8 :=
  (replaceAll (hunks.map byteEdit) (rawLines original)).flatten

def Replaced (hunks : List PatchHunk) (line : Nat) : Prop :=
  ∃ hunk ∈ hunks, (textEdit hunk).Covers line

instance (hunks : List PatchHunk) (line : Nat) : Decidable (Replaced hunks line) :=
  inferInstanceAs (Decidable (∃ hunk ∈ hunks, _))

/-- What is put back is what was there: every line that no hunk takes away is plain, and
there is something to put back. -/
structure Clean (original : List UInt8) (hunks : List PatchHunk) : Prop where
  plain : ∀ line ∈ (rawLines original).zipIdx, ¬ Replaced hunks line.2 → KeptWhole line.1
  left : (∃ hunk ∈ hunks, hunk.newLines ≠ []) ∨
    ∃ line < (rawLines original).length, ¬ Replaced hunks line

theorem joinLines_nil : joinLines [] = [0x0A] := rfl

theorem joinLines_eq : ∀ {lines : List (List Char)}, lines ≠ [] →
    joinLines lines = (lines.map endedLine).flatten
  | [], h => absurd rfl h
  | [line], _ => by
    rw [joinLines, intercalate_singleton, flatMap_append]
    exact (append_nil (endedLine line)).symm
  | line :: next :: lines, _ => by
    have hrest := joinLines_eq (cons_ne_nil next lines)
    rw [joinLines] at hrest ⊢
    rw [intercalate_cons_cons, map_cons, flatten_cons, ← hrest, append_assoc,
      flatMap_append, flatMap_append]
    rfl

theorem byteEdit_covers (line : Nat) :
    (∃ e ∈ hunks.map byteEdit, e.Covers line) ↔ Replaced hunks line := by
  simp only [mem_map, exists_exists_and_eq_and]
  rfl

theorem length_linesOf : (linesOf original).length = (rawLines original).length := by
  rw [linesOf_eq, length_map]

theorem joinLines_replaceAll
    (hne : replaceAll (hunks.map textEdit) (linesOf original) ≠ []) :
    joinLines (replaceAll (hunks.map textEdit) (linesOf original))
      = (replaceAll (hunks.map byteEdit)
          ((rawLines original).map (endedLine ∘ lineText))).flatten := by
  have hedits : hunks.map byteEdit = (hunks.map textEdit).map (Edit.map endedLine) :=
    (map_map ..).symm
  rw [joinLines_eq hne, ← replaceAll_map, ← hedits, linesOf_eq, map_map]

theorem replaceAll_texts_ne_nil (hfound : ∀ h ∈ hunks, Found (linesOf original) h) :
    replaceAll (hunks.map textEdit) (linesOf original) ≠ [] ↔
      (∃ hunk ∈ hunks, hunk.newLines ≠ []) ∨
        ∃ line < (rawLines original).length, ¬ Replaced hunks line := by
  have hfits : ∀ e ∈ hunks.map textEdit, e.Fits (linesOf original).length := by
    intro e he
    obtain ⟨h, hh, rfl⟩ := mem_map.mp he
    exact (hfound h hh).fits
  rw [replaceAll_ne_nil hfits, length_linesOf]
  simp only [mem_map, exists_exists_and_eq_and]
  exact Iff.rfl

theorem patched_eq_nil (hfound : ∀ h ∈ hunks, Found (linesOf original) h)
    (hnone : ¬ ((∃ hunk ∈ hunks, hunk.newLines ≠ []) ∨
      ∃ line < (rawLines original).length, ¬ Replaced hunks line)) :
    patched original hunks = [] := by
  have hfits : ∀ e ∈ hunks.map byteEdit, e.Fits (rawLines original).length := by
    intro e he
    obtain ⟨h, hh, rfl⟩ := mem_map.mp he
    rw [← length_linesOf]
    exact (hfound h hh).fits
  have hnil : replaceAll (hunks.map byteEdit) (rawLines original) = [] := by
    by_contra hne
    refine hnone (((replaceAll_ne_nil hfits).mp hne).imp ?_ ?_)
    · rintro ⟨e, he, hput⟩
      obtain ⟨h, hh, rfl⟩ := mem_map.mp he
      exact ⟨h, hh, fun hnil => hput (congrArg (List.map endedLine) hnil)⟩
    · rintro ⟨line, hline, huncovered⟩
      exact ⟨line, hline, fun hreplaced => huncovered ((byteEdit_covers line).mpr hreplaced)⟩
  rw [patched, hnil, flatten_nil]

/-- **What is written is the patched file exactly when it is clean.** -/
theorem joinLines_eq_patched_iff (hfound : ∀ h ∈ hunks, Found (linesOf original) h) :
    joinLines (replaceAll (hunks.map textEdit) (linesOf original)) = patched original hunks ↔
      Clean original hunks := by
  by_cases hleft : (∃ hunk ∈ hunks, hunk.newLines ≠ []) ∨
      ∃ line < (rawLines original).length, ¬ Replaced hunks line
  · have hagain : ∀ piece ∈ rawLines original, ∃ text,
        (endedLine ∘ lineText) piece = text ++ [0x0A] ∧ (0x0A : UInt8) ∉ text := fun piece hpiece =>
      ⟨_, rfl, Utf8.newline_not_mem_encode (newline_not_mem_lineText hpiece)⟩
    rw [joinLines_replaceAll ((replaceAll_texts_ne_nil hfound).mpr hleft), patched, replaceAll,
      replaceAll, flatten_edited_iff _ (terminated_rawLines original) hagain 0]
    have hline : ∀ line ∈ (rawLines original).zipIdx,
        (endedLine ∘ lineText) line.1 = line.1 ↔ KeptWhole line.1 := fun line hmem =>
      endedLine_lineText_iff (fst_mem_of_mem_zipIdx hmem)
    constructor
    · intro hsame
      refine ⟨fun line hmem hkept => (hline line hmem).mp (hsame line hmem ?_), hleft⟩
      exact fun hcovers => hkept ((byteEdit_covers line.2).mp hcovers)
    · intro hclean line hmem hkept
      exact (hline line hmem).mpr (hclean.plain line hmem
        (fun hreplaced => hkept ((byteEdit_covers line.2).mpr hreplaced)))
  · have hnil : replaceAll (hunks.map textEdit) (linesOf original) = [] := by
      by_contra hne
      exact hleft ((replaceAll_texts_ne_nil hfound).mp hne)
    rw [hnil, joinLines_nil, patched_eq_nil hfound hleft]
    exact iff_of_false (cons_ne_nil _ _) (fun hclean => hleft hclean.left)

end Bytes

/-! ### The call -/

section Call

variable {original : List UInt8} {hunks : List PatchHunk}

/-- **The promise of a patch.**  Hunks that are all found, in lines that have none in common,
are all put in at once, in whatever order they are given; a hunk that is not found fails the
call, which leaves everything as it was. -/
structure Patches (original : List UInt8) (hunks : List PatchHunk) : Prop where
  replaced : (∀ h ∈ hunks, Found (linesOf original) h) → hunks.Pairwise Disjoint →
    ∀ hunks', hunks'.Perm hunks → ∀ (s : WorkspaceFileService) path expected current,
      s.KeepsBooks → s.Outside path → s.read path = .ok (original, current) →
      s.applyPatch path expected hunks' = s.replace path (patched original hunks) expected
  refused : (∃ h ∈ hunks, ¬ Found (linesOf original) h) →
    ∀ (s : WorkspaceFileService) path expected current, s.read path = .ok (original, current) →
      ∃ e, s.applyPatch path expected hunks = (s, .error e)

/-- Hunks that are all found, in lines that have none in common, start at different lines; where
one is not found, those that are tried are apart. -/
structure Separate (original : List UInt8) (hunks : List PatchHunk) : Prop where
  found : (∀ h ∈ hunks, Found (linesOf original) h) → hunks.Pairwise Disjoint →
    hunks.Pairwise (fun g h => g.anchorLine ≠ h.anchorLine)
  missing : (∃ h ∈ hunks, ¬ Found (linesOf original) h) →
    HunksApart (reached (linesOf original) (bottomUp hunks))

theorem applyPatch_of_read {s : WorkspaceFileService} {path : String} {current : Nat}
    (hread : s.read path = .ok (original, current)) (expected : Nat) (hunks : List PatchHunk) :
    s.applyPatch path expected hunks =
      match patchLines path (bottomUp hunks) (linesOf original) with
      | .error e => (s, .error e)
      | .ok lines => s.replace path (joinLines lines) expected := by
  rw [applyPatch]
  generalize s.read path = answer at hread ⊢
  subst hread
  rfl

theorem patches_of_clean (hseparate : Separate original hunks)
    (hclean : (∀ h ∈ hunks, Found (linesOf original) h) → hunks.Pairwise Disjoint →
      Clean original hunks) : Patches original hunks where
  replaced hfound hdisjoint hunks' hperm s path expected current _ _ hread := by
    have hapart : HunksApart hunks := ⟨hseparate.found hfound hdisjoint, hdisjoint⟩
    rw [applyPatch_of_read hread, patchLines_bottomUp hperm hapart hfound]
    dsimp only
    rw [(joinLines_eq_patched_iff hfound).mpr (hclean hfound hdisjoint)]
  refused hmissing s path expected current hread := by
    have hsorted := (sorted_bottomUp hunks).sublist (reached_sublist (linesOf original) _)
    obtain ⟨h, hh, hnot⟩ := hmissing
    obtain ⟨e, he⟩ := @patchLines_of_not_found path (linesOf original) (bottomUp hunks)
      (linesOf original) ((hseparate.missing ⟨h, hh, hnot⟩).beneath hsorted) (fun _ _ => Iff.rfl)
      ⟨h, (perm_bottomUp hunks).mem_iff.mpr hh, hnot⟩
    rw [applyPatch_of_read hread, he]
    exact ⟨e, rfl⟩

def holding (bytes : List UInt8) : WorkspaceFileService :=
  ⟨[], FileTree.empty.update ["f"] (some (.file bytes)) (by decide +kernel),
    RevisionMap.empty.record "f" bytes, []⟩

theorem read_holding (bytes : List UInt8) : (holding bytes).read "f" = .ok (bytes, 1) := rfl

theorem outside_holding (bytes : List UInt8) :
    (holding bytes).KeepsBooks ∧ (holding bytes).Outside "f" := by
  constructor
  · refine ⟨[".modbit"], rfl, Or.inl rfl, fun name hname => Or.inl ?_⟩
    simp only [mem_cons, not_mem_nil, or_false] at hname
    rcases hname with rfl | rfl | rfl
    · rfl
    · rfl
    · rfl
  · rintro f hf ⟨d, hd, hpre⟩
    have hfile : some ["f"] = some f := hf
    have hown : some [".modbit"] = some d := hd
    cases hfile
    cases hown
    exact absurd hpre (by decide)

theorem node_replace_holding (bytes written : List UInt8) :
    ((holding bytes).replace "f" written 1).1.tree.node ["f"] = some (.file written) := rfl

theorem clean_of_patches (hseparate : Separate original hunks) (h : Patches original hunks)
    (hfound : ∀ h ∈ hunks, Found (linesOf original) h) (hdisjoint : hunks.Pairwise Disjoint) :
    Clean original hunks := by
  have hapart : HunksApart hunks := ⟨hseparate.found hfound hdisjoint, hdisjoint⟩
  obtain ⟨hbooks, houtside⟩ := outside_holding original
  have hcall := h.replaced hfound hdisjoint hunks (List.Perm.refl hunks) (holding original) "f" 1 1
    hbooks houtside (read_holding original)
  rw [applyPatch_of_read (read_holding original),
    patchLines_bottomUp (List.Perm.refl hunks) hapart hfound] at hcall
  have hnode := congrArg (fun a => a.1.tree.node ["f"]) hcall
  rw [node_replace_holding, node_replace_holding] at hnode
  exact (joinLines_eq_patched_iff hfound).mp (FileNode.file.inj (Option.some.inj hnode))

/-- **A file is patched as promised when the hunks are separate and, if all are found, what is
put back is what was there; of hunks that are separate only then.** -/
theorem patches_iff :
    (Separate original hunks ∧ ((∀ h ∈ hunks, Found (linesOf original) h) →
      hunks.Pairwise Disjoint → Clean original hunks) → Patches original hunks) ∧
    (Separate original hunks → Patches original hunks →
      (∀ h ∈ hunks, Found (linesOf original) h) → hunks.Pairwise Disjoint → Clean original hunks) :=
  ⟨fun h => patches_of_clean h.1 h.2, clean_of_patches⟩

/-- The first hunk is not found, and so it does not matter that the second one starts there. -/
example : Patches [97, 10] [⟨1, ["z".toList], []⟩, ⟨1, ["a".toList], ["b".toList]⟩] := by
  refine patches_of_clean ⟨fun h => ?_, fun _ => by decide⟩ (fun h => ?_)
  · exact absurd h (by decide)
  · exact absurd h (by decide)

/-- Two hunks at one line: what the first one puts there hides the old lines of the second. -/
example : ¬ Patches [120, 10] [⟨1, [], ["y".toList]⟩, ⟨1, ["x".toList], ["z".toList]⟩] := by
  intro h
  obtain ⟨hbooks, houtside⟩ := outside_holding [120, 10]
  have hcall := h.replaced (by decide) (by decide) _ (List.Perm.refl _) (holding [120, 10]) "f" 1 1
    hbooks houtside (read_holding _)
  exact absurd (congrArg Prod.snd hcall) (by decide +kernel)

/-- Two hunks that overlap: the upper one is found in what the lower one has put. -/
example : ¬ Patches [97, 10, 98, 10]
    [⟨2, ["b".toList], ["c".toList]⟩, ⟨1, ["a".toList, "c".toList], ["d".toList]⟩] := by
  intro h
  obtain ⟨e, he⟩ := h.refused (by decide) (holding [97, 10, 98, 10]) "f" 1 1 (read_holding _)
  have hanswer : ((holding [97, 10, 98, 10]).applyPatch "f" 1
      [⟨2, ["b".toList], ["c".toList]⟩, ⟨1, ["a".toList, "c".toList], ["d".toList]⟩]).2
      = .ok 2 := by decide +kernel
  rw [he] at hanswer
  cases hanswer

/-- A line is replaced and another put in front, in a file of two plain lines. -/
theorem patches_iff_plain :
    Patches [97, 10, 98, 10] [⟨2, ["b".toList], ["c".toList]⟩, ⟨1, [], ["d".toList]⟩] := by
  refine patches_iff.1 ⟨⟨fun _ _ => by decide, fun h => absurd h (by decide)⟩,
    fun _ _ => ⟨fun line hline _ => ?_, ?_⟩⟩
  · have hlines : rawLines [97, 10, 98, 10] = [[97, 10], [98, 10]] := by decide
    rw [hlines] at hline
    refine (@endedLine_lineText_iff [97, 10, 98, 10] _ ?_).mp ?_
    · rw [hlines]
      exact fst_mem_of_mem_zipIdx hline
    · revert line
      decide
  · exact Or.inl ⟨_, mem_cons_self, by decide⟩

/-- The first line of a file ends in a carriage return and a newline; the hunk is about the
second one. -/
theorem patches_carriage_return :
    ¬ ∀ (original : List UInt8) (hunks : List PatchHunk), Patches original hunks := by
  intro h
  have hclean := patches_iff.2 ⟨fun _ _ => by decide, fun _ => by decide⟩
    (h [97, 13, 10, 98, 10] [⟨2, ["b".toList], ["c".toList]⟩]) (by decide) (by decide)
  have hplain := hclean.plain ([97, 13, 10], 0) (by decide) (by decide)
  exact absurd ((@endedLine_lineText_iff [97, 13, 10, 98, 10] _ (by decide)).mpr hplain)
    (by decide)

end Call

end WorkspaceFileService

end Workspace

end Modbit
