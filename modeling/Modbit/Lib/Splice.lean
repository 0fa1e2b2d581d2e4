import Mathlib.Data.List.Basic

/-!
# Edits of a list by index

`foldr_modify` and `foldr_splice` say what is left of a list after edits that all carry
indices into the original one, applied from the last to the first: entries modified in
place, and ranges each replaced by one entry.  Going from the last range to the first is
what keeps the indices of the ranges good.
-/

namespace Modbit.Lib

open List

variable {α : Type*}

/-! ### Entries in place -/

theorem modify_mapIdx (f : Nat → α → α) (g : α → α) (i : Nat) (l : List α) :
    (l.mapIdx f).modify i g = l.mapIdx (fun j a => if j = i then g (f j a) else f j a) := by
  refine ext_getElem? (fun j => ?_)
  rw [getElem?_modify, getElem?_mapIdx, getElem?_mapIdx, Option.map_eq_map, Option.map_map]
  by_cases h : i = j
  · subst h
    simp only [if_true]
    rfl
  · simp only [if_neg h, if_neg (Ne.symm h)]
    rfl

theorem foldr_modify (f : Nat → α → α) (hf : ∀ i a, f i (f i a) = f i a) (is : List Nat)
    (l : List α) :
    is.foldr (fun i l => l.modify i (f i)) l
      = l.mapIdx (fun i a => if i ∈ is then f i a else a) := by
  induction is with
  | nil =>
    refine ext_getElem? (fun j => ?_)
    rw [foldr_nil, getElem?_mapIdx]
    simp
  | cons i is ih =>
    rw [foldr_cons, ih, modify_mapIdx]
    refine ext_getElem? (fun j => ?_)
    rw [getElem?_mapIdx, getElem?_mapIdx]
    refine congrArg (fun g => Option.map g l[j]?) (funext (fun a => ?_))
    by_cases hj : j = i
    · subst hj
      by_cases hmem : j ∈ is
      · simp [hmem, hf]
      · simp [hmem]
    · simp [hj]

/-! ### Ranges -/

/-- The entries from `start` to `stop` replaced by one. -/
def splice (l : List α) (start stop : Nat) (a : α) : List α :=
  if start < stop ∧ stop ≤ l.length then l.take start ++ a :: l.drop stop else l

/-- Strictly between the ends of one of the ranges. -/
def Inside (stop : Nat → Nat) (starts : List Nat) (i : Nat) : Prop :=
  ∃ s ∈ starts, s < i ∧ i < stop s

instance (stop : Nat → Nat) (starts : List Nat) (i : Nat) : Decidable (Inside stop starts i) :=
  inferInstanceAs (Decidable (∃ s ∈ starts, _))

/-- The entries that are not strictly inside a range, each range's first one replaced. -/
def collapse (stop : Nat → Nat) (starts : List Nat) (f : Nat → α) (l : List (α × Nat)) : List α :=
  (l.filter (fun e => ¬ Inside stop starts e.2)).map
    (fun e => if e.2 ∈ starts then f e.2 else e.1)

theorem collapse_append (stop : Nat → Nat) (starts : List Nat) (f : Nat → α)
    (l l' : List (α × Nat)) :
    collapse stop starts f (l ++ l') = collapse stop starts f l ++ collapse stop starts f l' := by
  rw [collapse, filter_append, map_append]
  rfl

variable {stop : Nat → Nat} {f : Nat → α} {l : List (α × Nat)}

theorem collapse_congr {starts starts' : List Nat}
    (hinside : ∀ e ∈ l, Inside stop starts e.2 ↔ Inside stop starts' e.2)
    (hstart : ∀ e ∈ l, e.2 ∈ starts ↔ e.2 ∈ starts') :
    collapse stop starts f l = collapse stop starts' f l := by
  have hfilter : l.filter (fun e => ¬ Inside stop starts e.2)
      = l.filter (fun e => ¬ Inside stop starts' e.2) :=
    filter_congr (fun e he => decide_eq_decide.mpr (not_congr (hinside e he)))
  rw [collapse, collapse, hfilter]
  refine map_congr_left (fun e he => ?_)
  have hiff := hstart e (mem_filter.mp he).1
  by_cases hmem : e.2 ∈ starts
  · rw [if_pos hmem, if_pos (hiff.mp hmem)]
  · rw [if_neg hmem, if_neg (fun h => hmem (hiff.mpr h))]

variable {starts : List Nat}

theorem collapse_before (h : ∀ e ∈ l, ∀ s ∈ starts, e.2 < s) :
    collapse stop starts f l = l.map Prod.fst := by
  have hnil : collapse stop starts f l = collapse stop [] f l := by
    refine collapse_congr (fun e he => ?_) (fun e he => ?_)
    · refine iff_of_false ?_ ?_
      · rintro ⟨s, hs, hlt, -⟩
        exact absurd hlt (Nat.lt_asymm (h e he s hs))
      · rintro ⟨s, hs, -⟩
        cases hs
    · refine iff_of_false (fun hs => ?_) not_mem_nil
      exact Nat.lt_irrefl _ (h e he _ hs)
  rw [hnil, collapse]
  have hkeep : l.filter (fun e => ¬ Inside stop [] e.2) = l := by
    refine filter_eq_self.mpr (fun e _ => decide_eq_true ?_)
    rintro ⟨s, hs, -⟩
    cases hs
  rw [hkeep]
  exact map_congr_left (fun e _ => if_neg not_mem_nil)

theorem collapse_inside (h : ∀ e ∈ l, Inside stop starts e.2) : collapse stop starts f l = [] := by
  rw [collapse, filter_eq_nil_iff.mpr, map_nil]
  intro e he
  simpa using h e he

variable {l : List α}

theorem snd_lt_of_mem_take {k : Nat} {e : α × Nat} (h : e ∈ l.zipIdx.take k) : e.2 < k := by
  obtain ⟨i, hi⟩ := mem_iff_getElem?.mp h
  rw [getElem?_take] at hi
  split_ifs at hi with hk
  rw [getElem?_zipIdx] at hi
  obtain ⟨a, -, rfl⟩ := Option.map_eq_some_iff.mp hi
  simpa using hk

theorem le_snd_of_mem_drop {k : Nat} {e : α × Nat} (h : e ∈ l.zipIdx.drop k) : k ≤ e.2 := by
  obtain ⟨i, hi⟩ := mem_iff_getElem?.mp h
  rw [getElem?_drop, getElem?_zipIdx] at hi
  obtain ⟨a, -, rfl⟩ := Option.map_eq_some_iff.mp hi
  simp

theorem zipIdx_eq_cut {start stop : Nat} (hlt : start < stop) (hle : stop ≤ l.length) :
    ∃ a, l.zipIdx = l.zipIdx.take start
      ++ ([(a, start)] ++ (l.zipIdx.take stop).drop (start + 1)) ++ l.zipIdx.drop stop := by
  have hget : (l.zipIdx.take stop)[start]? = some (l[start], start) := by
    rw [getElem?_take, if_pos hlt, getElem?_zipIdx, getElem?_eq_getElem (by omega)]
    simp
  obtain ⟨hi, hval⟩ := List.getElem?_eq_some_iff.mp hget
  refine ⟨l[start], ?_⟩
  have htake : l.zipIdx.take start = (l.zipIdx.take stop).take start := by
    rw [take_take, Nat.min_eq_left (by omega)]
  rw [singleton_append, ← hval, ← drop_eq_getElem_cons hi, htake,
    take_append_drop, take_append_drop]

theorem collapse_range {s : Nat} (hstarts : ∀ t ∈ starts, s < t) (a : α) :
    collapse stop (s :: starts) f ([(a, s)] ++ (l.zipIdx.take (stop s)).drop (s + 1)) = [f s] := by
  have hnot : ¬ Inside stop (s :: starts) s := by
    rintro ⟨t, ht, hts, -⟩
    rcases mem_cons.mp ht with rfl | ht
    · exact Nat.lt_irrefl _ hts
    · exact Nat.lt_asymm hts (hstarts t ht)
  have hfirst : collapse stop (s :: starts) f [(a, s)] = [f s] := by
    rw [collapse, filter_cons_of_pos (by simpa using hnot)]
    simp
  rw [collapse_append, hfirst, collapse_inside, append_nil]
  intro e he
  have hmem : e ∈ l.zipIdx.drop (s + 1) := by
    rw [drop_take] at he
    exact mem_of_mem_take he
  exact ⟨s, mem_cons_self, le_snd_of_mem_drop hmem,
    snd_lt_of_mem_take (mem_of_mem_drop he)⟩

/-- **Ranges replaced from the last to the first.**  Ranges in order, none reaching into
the next, each leave the one entry put in their place. -/
theorem foldr_splice (stop : Nat → Nat) (f : Nat → α) (l : List α) : ∀ starts : List Nat,
    starts.Pairwise (fun s t => stop s ≤ t) → (∀ s ∈ starts, s < stop s ∧ stop s ≤ l.length) →
    starts.foldr (fun s l => splice l s (stop s) (f s)) l = collapse stop starts f l.zipIdx := by
  intro starts
  induction starts with
  | nil =>
    intro _ _
    rw [collapse_before (fun e _ s hs => absurd hs not_mem_nil), foldr_nil, zipIdx_map_fst]
  | cons s starts ih =>
    intro hpair hbound
    obtain ⟨hhead, htail⟩ := pairwise_cons.mp hpair
    obtain ⟨hlt, hle⟩ := hbound s mem_cons_self
    -- up to the end of the first range the others have changed nothing
    have hrest : starts.foldr (fun s l => splice l s (stop s) (f s)) l
        = (l.take (stop s)) ++ collapse stop starts f (l.zipIdx.drop (stop s)) := by
      rw [ih htail (fun t ht => hbound t (mem_cons_of_mem s ht))]
      conv_lhs => rw [← take_append_drop (stop s) l.zipIdx]
      rw [collapse_append, collapse_before, map_take, zipIdx_map_fst]
      intro e he t ht
      exact Nat.lt_of_lt_of_le (snd_lt_of_mem_take he) (hhead t ht)
    have hlen : (l.take (stop s)).length = stop s := by
      rw [length_take]
      omega
    have hbefore : collapse stop (s :: starts) f (l.zipIdx.take s) = l.take s := by
      rw [collapse_before, map_take, zipIdx_map_fst]
      intro e he t ht
      have hlt' := snd_lt_of_mem_take he
      rcases mem_cons.mp ht with rfl | ht
      · exact hlt'
      · have := hhead t ht
        omega
    have hafter : collapse stop (s :: starts) f (l.zipIdx.drop (stop s))
        = collapse stop starts f (l.zipIdx.drop (stop s)) := by
      refine collapse_congr (fun e he => ?_) (fun e he => ?_)
      · have hge := le_snd_of_mem_drop he
        constructor
        · rintro ⟨t, ht, hts, hst⟩
          rcases mem_cons.mp ht with rfl | ht
          · omega
          · exact ⟨t, ht, hts, hst⟩
        · rintro ⟨t, ht, hts, hst⟩
          exact ⟨t, mem_cons_of_mem s ht, hts, hst⟩
      · have hge := le_snd_of_mem_drop he
        rw [mem_cons]
        constructor
        · rintro (h | h)
          · omega
          · exact h
        · exact Or.inr
    obtain ⟨a, hcut⟩ := zipIdx_eq_cut (l := l) hlt hle
    rw [foldr_cons, hrest, splice, if_pos ⟨hlt, by rw [length_append, hlen]; omega⟩,
      take_append_of_le_length (by omega), take_take, Nat.min_eq_left (by omega), drop_left' hlen]
    conv_rhs => rw [hcut]
    rw [collapse_append, collapse_append, hbefore, hafter,
      collapse_range (fun t ht => Nat.lt_of_lt_of_le hlt (hhead t ht)) a, append_assoc,
      singleton_append]

end Modbit.Lib
