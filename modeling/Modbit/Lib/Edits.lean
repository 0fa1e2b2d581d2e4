import Mathlib.Data.List.Basic
import Mathlib.Data.List.Perm.Basic
import Mathlib.Data.List.Enum

/-!
# Edits of a list, all at once

An edit takes some entries away from a place on and puts others there.  `replaceAll` makes
all edits of a list at once: it goes over the entries as they are numbered in the list
before any edit, so no edit can move another one.

`foldl_apply` says that edits which are apart may as well be made one after the other, the
last one in the list first.  `replaceAll_perm` says that their order does not matter.
-/

namespace Modbit.Lib

open List

variable {α β : Type*}

structure Edit (α : Type*) where
  start : Nat
  removed : Nat
  put : List α

namespace Edit

def Covers (e : Edit α) (i : Nat) : Prop := e.start ≤ i ∧ i < e.start + e.removed

instance (e : Edit α) (i : Nat) : Decidable (e.Covers i) := inferInstanceAs (Decidable (_ ∧ _))

def apply (e : Edit α) (l : List α) : List α :=
  l.take e.start ++ e.put ++ l.drop (e.start + e.removed)

/-- The edit starts before another one and ends before it. -/
def Below (e f : Edit α) : Prop := e.start < f.start ∧ e.start + e.removed ≤ f.start

def Fits (e : Edit α) (n : Nat) : Prop := e.start < n ∧ e.start + e.removed ≤ n

def map (f : α → β) (e : Edit α) : Edit β := ⟨e.start, e.removed, e.put.map f⟩

end Edit

def editNumbered (edits : List (Edit α)) (l : List (α × Nat)) : List α :=
  l.flatMap (fun x => (edits.filter (fun e => e.start = x.2)).flatMap Edit.put ++
    if ∃ e ∈ edits, e.Covers x.2 then [] else [x.1])

def replaceAll (edits : List (Edit α)) (l : List α) : List α := editNumbered edits l.zipIdx

section Numbered

variable {edits edits' : List (Edit α)} {l l' : List (α × Nat)}

theorem editNumbered_append :
    editNumbered edits (l ++ l') = editNumbered edits l ++ editNumbered edits l' :=
  flatMap_append

theorem editNumbered_cons (x : α × Nat) :
    editNumbered edits (x :: l) = ((edits.filter (fun e => e.start = x.2)).flatMap Edit.put ++
      if ∃ e ∈ edits, e.Covers x.2 then [] else [x.1]) ++ editNumbered edits l :=
  flatMap_cons

theorem editNumbered_congr
    (hstart : ∀ x ∈ l, edits.filter (fun e => e.start = x.2)
      = edits'.filter (fun e => e.start = x.2))
    (hcovers : ∀ x ∈ l, (∃ e ∈ edits, e.Covers x.2) ↔ ∃ e ∈ edits', e.Covers x.2) :
    editNumbered edits l = editNumbered edits' l := by
  refine flatMap_congr (fun x hx => ?_)
  rw [hstart x hx]
  by_cases h : ∃ e ∈ edits, e.Covers x.2
  · rw [if_pos h, if_pos ((hcovers x hx).mp h)]
  · rw [if_neg h, if_neg (fun h' => h ((hcovers x hx).mpr h'))]

theorem filter_start_eq_nil {i : Nat} (h : ∀ e ∈ edits, e.start ≠ i) :
    edits.filter (fun e => e.start = i) = [] :=
  filter_eq_nil_iff.mpr (fun e he => by simpa using h e he)

theorem editNumbered_untouched (h : ∀ x ∈ l, ∀ e ∈ edits, e.start ≠ x.2 ∧ ¬ e.Covers x.2) :
    editNumbered edits l = l.map Prod.fst := by
  rw [map_eq_flatMap]
  refine flatMap_congr (fun x hx => ?_)
  rw [filter_start_eq_nil (fun e he => (h x hx e he).1), if_neg]
  · rfl
  · rintro ⟨e, he, hcovers⟩
    exact (h x hx e he).2 hcovers

theorem editNumbered_gone
    (h : ∀ x ∈ l, (∀ e ∈ edits, e.start ≠ x.2) ∧ ∃ e ∈ edits, e.Covers x.2) :
    editNumbered edits l = [] := by
  refine flatMap_eq_nil_iff.mpr (fun x hx => ?_)
  rw [filter_start_eq_nil (h x hx).1, if_pos (h x hx).2]
  rfl

end Numbered

/-! ### One after the other -/

section Sequence

variable {e f : Edit α} {edits : List (Edit α)} {l : List α}

theorem Edit.Fits.cut (h : e.Fits l.length) : ∃ before gone after,
    l = before ++ (gone ++ after) ∧ before.length = e.start ∧ gone.length = e.removed ∧
      gone ++ after ≠ [] := by
  obtain ⟨hstart, hstop⟩ := h
  refine ⟨l.take e.start, (l.drop e.start).take e.removed, (l.drop e.start).drop e.removed,
    ?_, ?_, ?_, ?_⟩
  · rw [take_append_drop, take_append_drop]
  · rw [length_take]
    omega
  · rw [length_take, length_drop]
    omega
  · rw [take_append_drop]
    exact ne_nil_of_length_pos (by rw [length_drop]; omega)

theorem Edit.apply_cut {before gone after : List α} (hbefore : before.length = e.start)
    (hgone : gone.length = e.removed) :
    e.apply (before ++ (gone ++ after)) = before ++ (e.put ++ after) := by
  rw [Edit.apply, take_left' hbefore, ← append_assoc before,
    drop_left' (by rw [length_append, hbefore, hgone]), append_assoc]

theorem Edit.Below.not_covers {i : Nat} (h : f.Below e) (hi : e.start ≤ i) :
    f.start ≠ i ∧ ¬ f.Covers i := by
  obtain ⟨hstart, hstop⟩ := h
  refine ⟨by omega, ?_⟩
  rintro ⟨-, hlt⟩
  omega

theorem editNumbered_from {gone after : List α} (hbelow : ∀ f ∈ edits, f.Below e)
    (hgone : gone.length = e.removed) (hne : gone ++ after ≠ []) :
    editNumbered (e :: edits) ((gone ++ after).zipIdx e.start) = e.put ++ after := by
  have hrest : edits.filter (fun f => f.start = e.start) = [] :=
    filter_start_eq_nil (fun f hf => ((hbelow f hf).not_covers (Nat.le_refl _)).1)
  have hfirst : (e :: edits).filter (fun f => f.start = e.start) = [e] := by
    rw [filter_cons_of_pos (by simp), hrest]
  have hafter : ∀ n, e.start < n → e.start + e.removed ≤ n → ∀ l : List α,
      editNumbered (e :: edits) (l.zipIdx n) = l := by
    intro n hlt hle l
    rw [editNumbered_untouched, zipIdx_map_fst]
    intro x hx f hf
    have hn := le_snd_of_mem_zipIdx hx
    rcases mem_cons.mp hf with rfl | hf
    · exact ⟨by omega, fun hcovers => by have := hcovers.2; omega⟩
    · exact (hbelow f hf).not_covers (by omega)
  cases gone with
  | nil =>
    -- nothing is taken away: the first entry stays behind what is put before it
    cases after with
    | nil => exact absurd rfl hne
    | cons a after =>
      have hcovers : ¬ ∃ f ∈ e :: edits, f.Covers e.start := by
        rintro ⟨f, hf, hcovers⟩
        rcases mem_cons.mp hf with rfl | hf
        · have := hcovers.2
          rw [← hgone, length_nil] at this
          omega
        · exact ((hbelow f hf).not_covers (Nat.le_refl _)).2 hcovers
      rw [nil_append, zipIdx_cons, editNumbered_cons, hfirst, if_neg hcovers,
        hafter (e.start + 1) (by omega) (by rw [← hgone, length_nil]; omega)]
      simp
  | cons b gone =>
    rw [length_cons] at hgone
    have hcovers : ∃ f ∈ e :: edits, f.Covers e.start :=
      ⟨e, mem_cons_self, Nat.le_refl _, by omega⟩
    have hmiddle : editNumbered (e :: edits) (gone.zipIdx (e.start + 1)) = [] := by
      refine editNumbered_gone (fun x hx => ?_)
      have hlo := le_snd_of_mem_zipIdx hx
      have hhi := snd_lt_of_mem_zipIdx hx
      refine ⟨fun f hf => ?_, e, mem_cons_self, by omega, by omega⟩
      rcases mem_cons.mp hf with rfl | hf
      · omega
      · exact ((hbelow f hf).not_covers (by omega)).1
    rw [cons_append, zipIdx_cons, editNumbered_cons, hfirst, if_pos hcovers,
      zipIdx_append, editNumbered_append, hmiddle, hafter _ (by omega) (by omega)]
    simp

/-- **The last edit may be made first.** -/
theorem replaceAll_cons (hbelow : ∀ f ∈ edits, f.Below e) (hfits : e.Fits l.length) :
    replaceAll (e :: edits) l = replaceAll edits (e.apply l) := by
  obtain ⟨before, gone, after, rfl, hbefore, hgone, hne⟩ := hfits.cut
  have hlow : editNumbered (e :: edits) before.zipIdx = editNumbered edits before.zipIdx := by
    refine editNumbered_congr (fun x hx => ?_) (fun x hx => ?_)
    · have hlt := snd_lt_of_mem_zipIdx hx
      rw [filter_cons_of_neg (by simpa using (by omega : e.start ≠ x.2))]
    · have hlt := snd_lt_of_mem_zipIdx hx
      constructor
      · rintro ⟨f, hf, hcovers⟩
        rcases mem_cons.mp hf with rfl | hf
        · have := hcovers.1
          omega
        · exact ⟨f, hf, hcovers⟩
      · rintro ⟨f, hf, hcovers⟩
        exact ⟨f, mem_cons_of_mem e hf, hcovers⟩
  have hhigh : editNumbered edits ((e.put ++ after).zipIdx e.start) = e.put ++ after := by
    rw [editNumbered_untouched, zipIdx_map_fst]
    exact fun x hx f hf => (hbelow f hf).not_covers (le_snd_of_mem_zipIdx hx)
  have hcut : ∀ rest : List α, (before ++ rest).zipIdx = before.zipIdx ++ rest.zipIdx e.start :=
    fun rest => by rw [zipIdx_append, hbefore, Nat.zero_add]
  rw [Edit.apply_cut hbefore hgone, replaceAll, replaceAll, hcut, hcut, editNumbered_append,
    editNumbered_append, hlow, hhigh, editNumbered_from hbelow hgone hne]

theorem Edit.Below.fits_apply (h : f.Below e) (he : e.Fits l.length) :
    f.Fits (e.apply l).length := by
  obtain ⟨hstart, hstop⟩ := h
  obtain ⟨before, gone, after, rfl, hbefore, hgone, -⟩ := he.cut
  rw [Edit.apply_cut hbefore hgone, length_append, hbefore]
  exact ⟨by omega, by omega⟩

/-- **Edits that are apart, made from the last one down, are made all at once.** -/
theorem foldl_apply (edits : List (Edit α)) : ∀ l : List α,
    edits.Pairwise (fun e f => f.Below e) → (∀ e ∈ edits, e.Fits l.length) →
    edits.foldl (fun l e => e.apply l) l = replaceAll edits l := by
  induction edits with
  | nil =>
    intro l _ _
    rw [foldl_nil, replaceAll, editNumbered_untouched, zipIdx_map_fst]
    exact fun x _ e he => absurd he not_mem_nil
  | cons e edits ih =>
    intro l hpair hfits
    obtain ⟨hbelow, hpair⟩ := pairwise_cons.mp hpair
    have he := hfits e mem_cons_self
    rw [foldl_cons, ih _ hpair (fun f hf => (hbelow f hf).fits_apply he), replaceAll_cons hbelow he]

end Sequence

/-! ### Their order, and what they leave -/

variable {edits : List (Edit α)}

theorem filter_start_le_one (hstart : edits.Pairwise (fun e f => e.start ≠ f.start)) (i : Nat) :
    (edits.filter (fun e => e.start = i)).length ≤ 1 := by
  have hpair := hstart.filter (fun e => decide (e.start = i))
  have hmem : ∀ e ∈ edits.filter (fun e => e.start = i), e.start = i := fun e he => by
    simpa using (mem_filter.mp he).2
  revert hpair hmem
  generalize edits.filter (fun e => e.start = i) = found
  intro hpair hmem
  match found, hpair, hmem with
  | [], _, _ => exact Nat.zero_le 1
  | [e], _, _ => exact Nat.le_refl 1
  | e :: f :: rest, hpair, hmem =>
    have hne := (pairwise_cons.mp hpair).1 f mem_cons_self
    have he := hmem e mem_cons_self
    have hf := hmem f (mem_cons_of_mem e mem_cons_self)
    exact absurd (he.trans hf.symm) hne

theorem eq_of_perm_of_le_one {l l' : List α} (h : l.Perm l') (hl : l.length ≤ 1) : l = l' := by
  match l, hl with
  | [], _ => exact h.nil_eq
  | [a], _ => exact (singleton_perm.mp h).symm ▸ rfl

/-- **The order of the edits does not matter** when no two start at one entry. -/
theorem replaceAll_perm {edits edits' : List (Edit α)} (hperm : edits.Perm edits')
    (hstart : edits.Pairwise (fun e f => e.start ≠ f.start)) (l : List α) :
    replaceAll edits l = replaceAll edits' l := by
  refine editNumbered_congr (fun x _ => ?_) (fun x _ => ?_)
  · exact eq_of_perm_of_le_one (hperm.filter _) (filter_start_le_one hstart x.2)
  · exact ⟨fun ⟨e, he, h⟩ => ⟨e, hperm.mem_iff.mp he, h⟩,
      fun ⟨e, he, h⟩ => ⟨e, hperm.mem_iff.mpr he, h⟩⟩

theorem replaceAll_map (f : α → β) (edits : List (Edit α)) (l : List α) :
    replaceAll (edits.map (Edit.map f)) (l.map f) = (replaceAll edits l).map f := by
  rw [replaceAll, replaceAll, editNumbered, editNumbered, zipIdx_map, flatMap_map, map_flatMap]
  refine flatMap_congr (fun x _ => ?_)
  have hcovers : (∃ e ∈ edits.map (Edit.map f), e.Covers x.2) ↔ ∃ e ∈ edits, e.Covers x.2 := by
    constructor
    · rintro ⟨mapped, hmapped, h⟩
      obtain ⟨e, he, rfl⟩ := mem_map.mp hmapped
      exact ⟨e, he, h⟩
    · rintro ⟨e, he, h⟩
      exact ⟨e.map f, mem_map_of_mem he, h⟩
  have hput : ((edits.map (Edit.map f)).filter (fun e => e.start = x.2)).flatMap Edit.put
      = ((edits.filter (fun e => e.start = x.2)).flatMap Edit.put).map f := by
    rw [filter_map, flatMap_map, map_flatMap]
    rfl
  rw [map_append, ← hput]
  refine congrArg (_ ++ ·) ?_
  rw [Prod.map_snd, Prod.map_fst, id]
  by_cases h : ∃ e ∈ edits, e.Covers x.2
  · rw [if_pos h, if_pos (hcovers.mpr h)]
    rfl
  · rw [if_neg h, if_neg (fun h' => h (hcovers.mp h'))]
    rfl

theorem replaceAll_ne_nil {l : List α} (hfits : ∀ e ∈ edits, e.Fits l.length) :
    replaceAll edits l ≠ [] ↔ (∃ e ∈ edits, e.put ≠ []) ∨
      ∃ i < l.length, ¬ ∃ e ∈ edits, e.Covers i := by
  have hnumber : ∀ (i : Nat) (hi : i < l.length), (l[i], i) ∈ l.zipIdx := fun i hi =>
    mem_zipIdx_iff_getElem?.mpr (getElem?_eq_getElem hi)
  rw [replaceAll, editNumbered, Ne, flatMap_eq_nil_iff]
  constructor
  · intro h
    by_contra hno
    rw [not_or] at hno
    refine h (fun x hx => ?_)
    have hput : (edits.filter (fun e => e.start = x.2)).flatMap Edit.put = [] := by
      refine flatMap_eq_nil_iff.mpr (fun e he => ?_)
      by_contra hne
      exact hno.1 ⟨e, (mem_filter.mp he).1, hne⟩
    have hcovers : ∃ e ∈ edits, e.Covers x.2 := by
      by_contra hnone
      exact hno.2 ⟨x.2, snd_lt_of_mem_zipIdx hx, hnone⟩
    rw [hput, if_pos hcovers]
    rfl
  · rintro (⟨e, he, hne⟩ | ⟨i, hi, hnone⟩) hall
    · obtain ⟨hlt, -⟩ := hfits e he
      have hput := (append_eq_nil_iff.mp (hall _ (hnumber e.start hlt))).1
      exact hne (flatMap_eq_nil_iff.mp hput e
        (mem_filter.mpr ⟨he, decide_eq_true rfl⟩))
    · have hkept := (append_eq_nil_iff.mp (hall _ (hnumber i hi))).2
      rw [if_neg hnone] at hkept
      cases hkept

end Modbit.Lib
