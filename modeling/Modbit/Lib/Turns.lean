import Mathlib.Data.List.Sort
import Mathlib.Data.List.Induction

/-!
# A list taken in another order

The elements of a list are taken by their places, every place once, in some order.  Where the places
of the elements with one label are taken in turn, the elements with that label come as they stand in
the list (`filter_taken`), and so does all that is read off them (`filterMap_taken`).

`getElem?_concat_cases` says what stands where in a list that has grown by one.
-/

namespace Modbit.Lib

open List

variable {α β γ : Type} {xs : List α}

theorem getElem?_concat_cases {x y : α} {i : Nat} (h : (xs ++ [x])[i]? = some y) :
    xs[i]? = some y ∨ i = xs.length ∧ y = x := by
  rcases Nat.lt_or_ge i xs.length with hlt | hge
  · rw [getElem?_append_left hlt] at h
    exact Or.inl h
  · rw [getElem?_append_right hge] at h
    obtain ⟨hlt, hy⟩ := List.getElem?_eq_some_iff.mp h
    have hzero : i - xs.length = 0 := Nat.lt_one_iff.mp hlt
    refine Or.inr ⟨by omega, ?_⟩
    rw [← hy, getElem_singleton]

def takenAt (xs : List α) (places : List Nat) : List α := places.filterMap (fun i => xs[i]?)

theorem takenAt_range (xs : List α) : takenAt xs (List.range xs.length) = xs := by
  induction xs using List.reverseRecOn with
  | nil => rfl
  | append_singleton xs x ih =>
    have hinit : takenAt (xs ++ [x]) (List.range xs.length) = takenAt xs (List.range xs.length) :=
      filterMap_congr (fun i hi => getElem?_append_left (mem_range.mp hi))
    have hlast : takenAt (xs ++ [x]) [xs.length] = [x] := by
      rw [takenAt, filterMap_cons, getElem?_concat_length]
      rfl
    rw [length_append, length_singleton, range_succ, takenAt, filterMap_append,
      ← takenAt, ← takenAt, hinit, hlast, ih]

theorem takenAt_append {places : List Nat} (h : ∀ i ∈ places, i < xs.length)
    (ys : List α) : takenAt (xs ++ ys) places = takenAt xs places :=
  filterMap_congr (fun i hi => getElem?_append_left (h i hi))

theorem mem_of_mem_takenAt {places : List Nat} {x : α} (h : x ∈ takenAt xs places) : x ∈ xs := by
  obtain ⟨i, -, hi⟩ := mem_filterMap.mp h
  exact mem_of_getElem? hi

/-- The places of elements with one label are taken in turn. -/
def InTurn (label : α → β) (xs : List α) (places : List Nat) : Prop :=
  places.Pairwise (fun i j => xs[i]?.map label = xs[j]?.map label → i < j)

variable {label : α → β} {xs : List α} {places : List Nat}

theorem filter_takenAt (xs : List α) (places : List Nat) (p : α → Bool) :
    (takenAt xs places).filter p = takenAt xs (places.filter (fun i => xs[i]?.any p)) := by
  rw [takenAt, takenAt, filter_filterMap, filterMap_filter]
  refine filterMap_congr (fun i _ => ?_)
  cases xs[i]? with
  | none => rfl
  | some x => rfl

/-- **Elements with one label come in the order of the list.** -/
theorem filter_taken [DecidableEq β] (hall : ∀ i, i ∈ places ↔ i < xs.length)
    (hturn : InTurn label xs places) (b : β) :
    (takenAt xs places).filter (fun x => label x = b) = xs.filter (fun x => label x = b) := by
  let here : Nat → Bool := fun i => xs[i]?.any (fun x => label x = b)
  have hlabel : ∀ i, here i = true → xs[i]?.map label = some b := by
    intro i hi
    cases hx : xs[i]? with
    | none =>
      rw [show here i = false from congrArg (Option.any _) hx] at hi
      cases hi
    | some x =>
      rw [show here i = decide (label x = b) from congrArg (Option.any _) hx] at hi
      exact congrArg some (of_decide_eq_true hi)
  have hplaces : places.filter here = (List.range xs.length).filter here := by
    refine List.Pairwise.eq_of_mem_iff (r := (· < ·)) ?_ ?_ (fun i => ?_)
    · refine (hturn.filter here).imp_of_mem (fun hi hj h => h ?_)
      rw [hlabel _ (mem_filter.mp hi).2, hlabel _ (mem_filter.mp hj).2]
    · exact pairwise_lt_range.filter here
    · rw [mem_filter, mem_filter, mem_range, hall]
  calc (takenAt xs places).filter (fun x => label x = b)
      = takenAt xs (places.filter here) := filter_takenAt xs places _
    _ = (takenAt xs (List.range xs.length)).filter (fun x => label x = b) := by
        rw [hplaces, filter_takenAt]
    _ = xs.filter (fun x => label x = b) := by rw [takenAt_range]

theorem filterMap_filter_of {f : α → Option γ} {p : α → Bool} (h : ∀ x, (f x).isSome → p x = true)
    (xs : List α) : (xs.filter p).filterMap f = xs.filterMap f := by
  rw [filterMap_filter]
  refine filterMap_congr (fun x _ => ?_)
  cases hf : f x with
  | none => rw [ite_self]
  | some y => rw [if_pos (h x (by rw [hf]; rfl))]

theorem filterMap_taken [DecidableEq β] (hall : ∀ i, i ∈ places ↔ i < xs.length)
    (hturn : InTurn label xs places) {b : β} {f : α → Option γ}
    (hf : ∀ x, (f x).isSome → label x = b) :
    (takenAt xs places).filterMap f = xs.filterMap f := by
  have hp : ∀ x, (f x).isSome → decide (label x = b) = true := fun x hx => decide_eq_true (hf x hx)
  rw [← filterMap_filter_of hp, filter_taken hall hturn, filterMap_filter_of hp]

theorem InTurn.append (h : InTurn label xs places) (hin : ∀ i ∈ places, i < xs.length)
    (ys : List α) : InTurn label (xs ++ ys) places := by
  refine h.imp_of_mem (fun hi hj hlt hsame => hlt ?_)
  rwa [getElem?_append_left (hin _ hi), getElem?_append_left (hin _ hj)] at hsame

/-- A place of which all lower ones with its label are taken may be taken next, when the places so far
were. -/
theorem InTurn.concat {i : Nat} (h : InTurn label xs places)
    (hlow : ∀ k ∈ places, i < k → xs[i]?.map label = xs[k]?.map label → i ∈ places)
    (hnew : i ∉ places) : InTurn label xs (places ++ [i]) := by
  refine pairwise_append.mpr ⟨h, pairwise_singleton _ _, fun k hk j hj hsame => ?_⟩
  rw [mem_singleton.mp hj] at hsame ⊢
  rcases Nat.lt_trichotomy k i with hlt | rfl | hgt
  · exact hlt
  · exact absurd hk hnew
  · exact absurd (hlow k hk hgt hsame.symm) hnew

end Modbit.Lib
