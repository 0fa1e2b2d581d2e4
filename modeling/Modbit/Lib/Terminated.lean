import Modbit.Lib.Edits

/-!
# Lines with their ends

`terminated` cuts a list after every newline, so that each piece has its newline with it
and the pieces one after the other are the list again: `flatten_terminated`.  Only the last
piece may have none.

`flatten_edited_iff` compares two ways to edit the pieces: as they are, and each put back
with a newline of its own.  They come to the same bytes exactly when every piece that is
kept is one that is put back as it was.

`drainLines` takes out the pieces that have their newline and keeps the rest, and
`drainLines_append` says that it may do so whenever more of the list has come.
-/

namespace Modbit.Lib

open List

variable {α : Type*} [DecidableEq α] {nl : α}

def terminated (nl : α) : List α → List (List α)
  | [] => []
  | a :: l =>
    if a = nl then [a] :: terminated nl l
    else match terminated nl l with
      | [] => [[a]]
      | piece :: pieces => (a :: piece) :: pieces

/-- Pieces as `terminated` makes them. -/
inductive Terminated (nl : α) : List (List α) → Prop where
  | nil : Terminated nl []
  | last {piece : List α} : piece ≠ [] → nl ∉ piece → Terminated nl [piece]
  | cons {piece : List α} {pieces : List (List α)} : nl ∉ piece → Terminated nl pieces →
    Terminated nl ((piece ++ [nl]) :: pieces)

theorem flatten_terminated (l : List α) : (terminated nl l).flatten = l := by
  induction l with
  | nil => rfl
  | cons a l ih =>
    rw [terminated]
    split_ifs with ha
    · rw [flatten_cons, ih]
      rfl
    · split
      · next hnil =>
        rw [hnil] at ih
        rw [← ih]
        rfl
      · next piece pieces hcons =>
        rw [hcons] at ih
        rw [← ih]
        rfl

theorem terminated_spec (l : List α) : Terminated nl (terminated nl l) := by
  induction l with
  | nil => exact .nil
  | cons a l ih =>
    rw [terminated]
    split_ifs with ha
    · rw [ha]
      exact .cons (not_mem_nil) ih
    · cases hl : terminated nl l with
      | nil => exact .last (cons_ne_nil a []) (by simpa using Ne.symm ha)
      | cons piece pieces =>
        rw [hl] at ih
        have hnot : ∀ {piece : List α}, nl ∉ piece → nl ∉ a :: piece := fun hpiece hmem =>
          (mem_cons.mp hmem).elim (fun h => ha h.symm) hpiece
        generalize hwhole : piece :: pieces = whole at ih
        cases ih with
        | nil => cases hwhole
        | last hne hpiece =>
          cases hwhole
          exact .last (cons_ne_nil a _) (hnot hpiece)
        | cons hpiece hrest =>
          cases hwhole
          exact .cons (hnot hpiece) hrest

omit [DecidableEq α] in
theorem Terminated.piece {pieces : List (List α)} (h : Terminated nl pieces) {piece : List α}
    (hpiece : piece ∈ pieces) :
    nl ∉ piece ∧ piece ≠ [] ∨ ∃ text, nl ∉ text ∧ piece = text ++ [nl] := by
  induction h with
  | nil => cases hpiece
  | last hne hnot =>
    rw [mem_singleton.mp hpiece]
    exact Or.inl ⟨hnot, hne⟩
  | cons hnot _ ih =>
    rcases mem_cons.mp hpiece with rfl | hpiece
    · exact Or.inr ⟨_, hnot, rfl⟩
    · exact ih hpiece

omit [DecidableEq α] in
theorem append_newline_inj : ∀ {l l' rest rest' : List α}, nl ∉ l → nl ∉ l' →
    (l ++ nl :: rest = l' ++ nl :: rest' ↔ l = l' ∧ rest = rest')
  | [], [], _, _, _, _ => by simp
  | [], a :: l', _, _, _, hl' =>
    iff_of_false (fun h => hl' ((List.cons.inj h).1 ▸ mem_cons_self)) (fun h => by cases h.1)
  | a :: l, [], _, _, hl, _ =>
    iff_of_false (fun h => hl ((List.cons.inj h).1 ▸ mem_cons_self)) (fun h => by cases h.1)
  | a :: l, b :: l', _, _, hl, hl' => by
    rw [cons_append, cons_append, List.cons.injEq, List.cons.injEq, and_assoc,
      append_newline_inj (fun h => hl (mem_cons_of_mem a h))
        (fun h => hl' (mem_cons_of_mem b h))]

omit [DecidableEq α] in
/-- **Edited pieces, and the pieces each ended anew.** -/
theorem flatten_edited_iff (edits : List (Edit (List α))) {again : List α → List α}
    {pieces : List (List α)} (h : Terminated nl pieces)
    (hagain : ∀ piece ∈ pieces, ∃ text, again piece = text ++ [nl] ∧ nl ∉ text) : ∀ n : Nat,
    (editNumbered edits ((pieces.map again).zipIdx n)).flatten
        = (editNumbered edits (pieces.zipIdx n)).flatten ↔
      ∀ x ∈ pieces.zipIdx n, ¬ (∃ e ∈ edits, e.Covers x.2) → again x.1 = x.1 := by
  induction h with
  | nil => exact fun n => iff_of_true rfl (fun x hx => by cases hx)
  | @last piece hne hnot =>
    intro n
    obtain ⟨text, htext, -⟩ := hagain piece mem_cons_self
    have hdiffer : again piece ≠ piece := by
      intro hsame
      rw [htext] at hsame
      exact hnot (hsame ▸ mem_append_right text mem_cons_self)
    rw [map_singleton, zipIdx_singleton, zipIdx_singleton, editNumbered_cons,
      editNumbered_cons, forall_mem_singleton]
    by_cases hcovers : ∃ e ∈ edits, e.Covers n
    · rw [if_pos hcovers, if_pos hcovers]
      exact iff_of_true rfl (fun hkept => absurd hcovers hkept)
    · rw [if_neg hcovers, if_neg hcovers]
      refine iff_of_false (fun heq => ?_) (fun hsame => hdiffer (hsame hcovers))
      simp only [flatten_append, flatten_singleton] at heq
      exact hdiffer (append_cancel_left (append_cancel_right heq))
  | @cons piece pieces hnot hrest ih =>
    intro n
    have ih := ih (fun p hp => hagain p (mem_cons_of_mem _ hp)) (n + 1)
    obtain ⟨text, htext, htextnot⟩ := hagain (piece ++ [nl]) mem_cons_self
    rw [map_cons, zipIdx_cons, zipIdx_cons, editNumbered_cons, editNumbered_cons,
      forall_mem_cons, ← ih]
    simp only [flatten_append, append_assoc]
    rw [append_right_inj]
    by_cases hcovers : ∃ e ∈ edits, e.Covers n
    · rw [if_pos hcovers, if_pos hcovers, and_iff_right (fun hkept => absurd hcovers hkept)]
      exact Iff.rfl
    · rw [if_neg hcovers, if_neg hcovers, htext]
      simp only [flatten_singleton, append_assoc, singleton_append]
      rw [append_newline_inj htextnot hnot, append_cancel_right_eq]
      exact and_congr_left (fun _ => ⟨fun h _ => h, fun h => h hcovers⟩)

/-! ### Lines as they come -/

/-- The lines that are ended, each with its newline, and what is left. -/
def drainLines (nl : α) : List α → List (List α) × List α
  | [] => ([], [])
  | a :: l =>
    if a = nl then ([a] :: (drainLines nl l).1, (drainLines nl l).2)
    else
      match (drainLines nl l).1 with
      | [] => ([], a :: (drainLines nl l).2)
      | line :: lines => ((a :: line) :: lines, (drainLines nl l).2)

theorem drainLines_newline (l : List α) :
    drainLines nl (nl :: l) = ([nl] :: (drainLines nl l).1, (drainLines nl l).2) := by
  rw [drainLines, if_pos rfl]

theorem drainLines_of_nil {a : α} {l : List α} (ha : a ≠ nl) (h : (drainLines nl l).1 = []) :
    drainLines nl (a :: l) = ([], a :: (drainLines nl l).2) := by
  rw [drainLines, if_neg ha, h]

theorem drainLines_of_cons {a : α} {l line : List α} {lines : List (List α)} (ha : a ≠ nl)
    (h : (drainLines nl l).1 = line :: lines) :
    drainLines nl (a :: l) = ((a :: line) :: lines, (drainLines nl l).2) := by
  rw [drainLines, if_neg ha, h]

/-- **Lines may be taken out before the rest has come.** -/
theorem drainLines_append (l m : List α) : drainLines nl (l ++ m) =
    ((drainLines nl l).1 ++ (drainLines nl ((drainLines nl l).2 ++ m)).1,
      (drainLines nl ((drainLines nl l).2 ++ m)).2) := by
  induction l with
  | nil => rfl
  | cons a l ih =>
    rw [cons_append]
    by_cases ha : a = nl
    · subst ha
      rw [drainLines_newline, drainLines_newline, ih]
      rfl
    · cases hl : (drainLines nl l).1 with
      | nil =>
        rw [drainLines_of_nil ha hl, nil_append, cons_append]
        rw [hl, nil_append] at ih
        cases hm : (drainLines nl ((drainLines nl l).2 ++ m)).1 with
        | nil =>
          rw [hm] at ih
          rw [drainLines_of_nil ha (congrArg Prod.fst ih), drainLines_of_nil ha hm, ih]
        | cons line lines =>
          rw [hm] at ih
          rw [drainLines_of_cons ha (congrArg Prod.fst ih), drainLines_of_cons ha hm, ih]
      | cons line lines =>
        rw [hl, cons_append] at ih
        rw [drainLines_of_cons ha hl, drainLines_of_cons ha (congrArg Prod.fst ih), ih]
        rfl

theorem drainLines_spec (l : List α) :
    (∀ line ∈ (drainLines nl l).1, nl ∈ line) ∧ nl ∉ (drainLines nl l).2 ∧
      terminated nl l = (drainLines nl l).1 ++
        if (drainLines nl l).2 = [] then [] else [(drainLines nl l).2] := by
  induction l with
  | nil => exact ⟨fun line hline => (by cases hline), not_mem_nil, rfl⟩
  | cons a l ih =>
    obtain ⟨hended, hrest, hall⟩ := ih
    by_cases ha : a = nl
    · subst ha
      rw [drainLines_newline, terminated, if_pos rfl, hall]
      refine ⟨fun line hline => ?_, hrest, rfl⟩
      rcases mem_cons.mp hline with rfl | hline
      · exact mem_cons_self
      · exact hended line hline
    · cases hl : (drainLines nl l).1 with
      | nil =>
        rw [drainLines_of_nil ha hl, terminated, if_neg ha, hall, hl, nil_append]
        refine ⟨fun line hline => (by cases hline), ?_, ?_⟩
        · exact fun hmem => (mem_cons.mp hmem).elim (fun h => ha h.symm) hrest
        · by_cases hnil : (drainLines nl l).2 = []
          · rw [hnil]
            rfl
          · rw [if_neg hnil]
            rfl
      | cons line lines =>
        rw [hl] at hended
        rw [drainLines_of_cons ha hl, terminated, if_neg ha, hall, hl]
        refine ⟨fun line' hline' => ?_, hrest, rfl⟩
        rcases mem_cons.mp hline' with rfl | hline'
        · exact mem_cons_of_mem a (hended line mem_cons_self)
        · exact hended line' (mem_cons_of_mem line hline')

/-- **The lines that are taken out are the pieces with a newline.** -/
theorem fst_drainLines (l : List α) :
    (drainLines nl l).1 = (terminated nl l).filter (nl ∈ ·) := by
  obtain ⟨hended, hrest, hall⟩ := @drainLines_spec _ _ nl l
  rw [hall, filter_append, filter_eq_self.mpr fun line hline => decide_eq_true (hended line hline)]
  split_ifs with hnil
  · exact (append_nil _).symm
  · rw [filter_singleton, decide_eq_false hrest, cond_false, append_nil]

end Modbit.Lib
