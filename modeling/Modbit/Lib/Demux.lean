import Mathlib.Data.List.Induction
import Mathlib.Data.List.Nodup

/-!
# Interleaved streams

Several streams are interleaved in one list, and every item names its stream by a key.
`keys` are the streams in the order in which they come up, and `first` is the item a stream
comes up with.  A receiver that keeps one record per stream updates the record of an item's
key (`modify_findIdx`), or adds one.
-/

namespace Modbit.Lib

namespace Demux

open List

variable {α β κ : Type} [DecidableEq κ] (key : α → κ)

def keys (xs : List α) : List κ :=
  xs.foldl (fun ks x => if key x ∈ ks then ks else ks ++ [key x]) []

def first (xs : List α) (k : κ) : Option α := xs.find? (fun x => key x = k)

variable {key} {xs : List α} {x : α} {k : κ}

theorem keys_concat : keys key (xs ++ [x])
    = if key x ∈ keys key xs then keys key xs else keys key xs ++ [key x] := by
  rw [keys, foldl_append]
  rfl

theorem mem_keys : k ∈ keys key xs ↔ ∃ x ∈ xs, key x = k := by
  induction xs using List.reverseRecOn with
  | nil => simp [keys]
  | append_singleton xs x ih =>
    rw [keys_concat]
    split_ifs with hx
    · constructor
      · intro hk
        obtain ⟨y, hy, hkey⟩ := ih.mp hk
        exact ⟨y, mem_append_left _ hy, hkey⟩
      · rintro ⟨y, hy, rfl⟩
        rcases mem_append.mp hy with hold | hlast
        · exact ih.mpr ⟨y, hold, rfl⟩
        · rw [mem_singleton.mp hlast]
          exact hx
    · rw [mem_append, mem_singleton, ih]
      constructor
      · rintro (⟨y, hy, rfl⟩ | rfl)
        · exact ⟨y, mem_append_left _ hy, rfl⟩
        · exact ⟨x, mem_append_right _ mem_cons_self, rfl⟩
      · rintro ⟨y, hy, rfl⟩
        rcases mem_append.mp hy with hold | hlast
        · exact .inl ⟨y, hold, rfl⟩
        · rw [mem_singleton.mp hlast]
          exact .inr rfl

theorem nodup_keys (xs : List α) : (keys key xs).Nodup := by
  induction xs using List.reverseRecOn with
  | nil => exact nodup_nil
  | append_singleton xs x ih =>
    rw [keys_concat]
    split_ifs with hx
    · exact ih
    · rw [← concat_eq_append]
      exact ih.concat hx

theorem first_concat_of_mem (h : k ∈ keys key xs) : first key (xs ++ [x]) k = first key xs k := by
  obtain ⟨y, hy, hkey⟩ := mem_keys.mp h
  have hsome : (first key xs k).isSome = true :=
    find?_isSome.mpr ⟨y, hy, decide_eq_true hkey⟩
  rw [first, find?_append]
  exact Option.or_of_isSome hsome

theorem first_concat_self (h : key x ∉ keys key xs) : first key (xs ++ [x]) (key x) = some x := by
  have hnone : xs.find? (fun y => decide (key y = key x)) = none := by
    rw [find?_eq_none]
    intro y hy hkey
    exact h (mem_keys.mpr ⟨y, hy, of_decide_eq_true hkey⟩)
  rw [first, find?_append, hnone, Option.none_or]
  simp

variable (key) in
theorem filterMap_keys {f : α → Option β} (h : xs.Pairwise (fun a b => (f b).isSome → key a ≠ key b)) :
    (keys key xs).filterMap (fun k => (first key xs k).bind f) = xs.filterMap f := by
  induction xs using List.reverseRecOn with
  | nil => rfl
  | append_singleton xs x ih =>
    obtain ⟨hxs, -, hlast⟩ := pairwise_append.mp h
    have hsame : (keys key xs).filterMap (fun k => (first key (xs ++ [x]) k).bind f)
        = xs.filterMap f := by
      rw [← ih hxs]
      refine filterMap_congr (fun k hk => ?_)
      rw [first_concat_of_mem hk]
    rw [keys_concat, filterMap_append]
    split_ifs with hx
    · obtain ⟨y, hy, hkey⟩ := mem_keys.mp hx
      have hnone : f x = none := by
        by_contra hsome
        exact hlast y hy x mem_cons_self (Option.isSome_iff_ne_none.mpr hsome) hkey
      rw [hsame, filterMap_cons_none hnone, filterMap_nil, append_nil]
    · have hlast : [key x].filterMap (fun k => (first key (xs ++ [x]) k).bind f) = [x].filterMap f := by
        rw [filterMap_cons, filterMap_cons, first_concat_self hx]
        rfl
      rw [filterMap_append, hsame, hlast]

theorem modify_findIdx {ks : List κ} (hks : ks.Nodup) (hk : k ∈ ks) {record : κ → β} {p : β → Bool}
    (hp : ∀ j ∈ ks, p (record j) = decide (j = k)) (g : β → β) :
    (ks.map record).modify ((ks.map record).findIdx p) g
      = ks.map (fun j => if j = k then g (record j) else record j) := by
  induction ks with
  | nil => cases hk
  | cons j ks ih =>
    obtain ⟨hj, hks'⟩ := nodup_cons.mp hks
    have hpj := hp j mem_cons_self
    rw [map_cons, map_cons, findIdx_cons, hpj]
    by_cases hjk : j = k
    · have hrest : ks.map record = ks.map (fun j => if j = k then g (record j) else record j) := by
        refine map_congr_left (fun i hi => ?_)
        rw [if_neg (fun hik => hj (by rw [hjk, ← hik]; exact hi))]
      rw [decide_eq_true hjk, if_pos hjk, ← hrest]
      rfl
    · rw [decide_eq_false hjk, if_neg hjk]
      have hk' : k ∈ ks := by
        rcases mem_cons.mp hk with hself | hmem
        · exact absurd hself.symm hjk
        · exact hmem
      exact congrArg (record j :: ·) (ih hks' hk' (fun i hi => hp i (mem_cons_of_mem _ hi)))

end Demux

end Modbit.Lib
