import Modbit.Retrieval.Dependencies
import Mathlib.Data.List.Sort

/-!
# Who is affected by a change

`impact` goes through the dependents of a file in waves: those that have it imported, those that
have one of these, and so on to a depth.  Each file is noted in the first wave that
reaches it, so that its number of hops is the length of a shortest chain of imports
(`impact_spec`).
-/

namespace Modbit

open Lib List

namespace Retrieval

namespace DependencyIndex

/-! ### The waves -/

def importedBy (d : DependencyIndex) (path : String) : List String :=
  ((d.edges.entries.filter (fun e => (e.2.find? path).isSome)).map (·.1)).mergeSort
    (fun a b => decide (a ≤ b))

/-- What one turn of the loop over the depths builds up. -/
structure Wave where
  seen : OrdMap String Nat
  next : OrdMap String Unit

def Wave.note (path : String) (depth : Nat) (w : Wave) (dependent : String) : Wave :=
  if dependent ≠ path ∧ w.seen.find? dependent = none then
    ⟨w.seen.insert dependent depth, w.next.insert dependent ()⟩
  else w

section Loop

variable (d : DependencyIndex) (path : String)

def wave (depth : Nat) (frontier : List String) (seen : OrdMap String Nat) : Wave :=
  frontier.foldl (fun w node => (d.importedBy node).foldl (Wave.note path depth) w) ⟨seen, .empty⟩

/-- The loop over the depths, with the number of turns that it still has. -/
def impactFrom : Nat → Nat → List String → OrdMap String Nat → OrdMap String Nat
  | 0, _, _, seen => seen
  | turns + 1, depth, frontier, seen =>
    let w := d.wave path depth frontier seen
    if w.next.keys = [] then w.seen else impactFrom turns (depth + 1) w.next.keys w.seen

def byHops (a b : String × Nat) : Bool := a.2 < b.2 || (a.2 == b.2 && decide (a.1 ≤ b.1))

def impact (maxDepth : Nat) : List (String × Nat) :=
  (d.impactFrom path (max maxDepth 1) 1 [path] .empty).entries.mergeSort byHops

end Loop

/-! ### Chains of imports -/

/-- `v` imports `w`. -/
def Imports (d : DependencyIndex) (v w : String) : Prop :=
  ∃ targets, d.edges.find? v = some targets ∧ (targets.find? w).isSome

inductive Chain (d : DependencyIndex) (path : String) : Nat → String → Prop
  | here : Chain d path 0 path
  | hop {n : Nat} {v w : String} (hstep : d.Imports v w) (hrest : Chain d path n w) :
      Chain d path (n + 1) v

/-- The shortest chain from a file to the path has so many imports. -/
def Hops (d : DependencyIndex) (path v : String) (n : Nat) : Prop :=
  Chain d path n v ∧ ∀ m < n, ¬ Chain d path m v

/-- What `impact` is to return. -/
structure Impacted (d : DependencyIndex) (path : String) (depth : Nat)
    (out : List (String × Nat)) : Prop where
  mem : ∀ v n, (v, n) ∈ out ↔ v ≠ path ∧ n ≤ depth ∧ Hops d path v n
  sorted : out.Pairwise (fun a b => a.2 < b.2 ∨ a.2 = b.2 ∧ a.1 < b.1)

variable {d : DependencyIndex} {path v w : String} {n m : Nat}

theorem mem_importedBy : v ∈ d.importedBy w ↔ d.Imports v w := by
  rw [importedBy, mem_mergeSort, mem_map, Imports]
  constructor
  · rintro ⟨e, he, rfl⟩
    obtain ⟨hmem, hfind⟩ := mem_filter.mp he
    exact ⟨e.2, OrdMap.mem_entries.mp hmem, hfind⟩
  · rintro ⟨targets, hv, hfind⟩
    exact ⟨(v, targets), mem_filter.mpr ⟨OrdMap.mem_entries.mpr hv, hfind⟩, rfl⟩

theorem Hops.unique (hn : Hops d path v n) (hm : Hops d path v m) : n = m := by
  rcases Nat.lt_trichotomy n m with h | h | h
  · exact absurd hn.1 (hm.2 n h)
  · exact h
  · exact absurd hm.1 (hn.2 m h)

theorem Chain.hops (h : Chain d path n v) : ∃ m ≤ n, Hops d path v m := by
  induction n using Nat.strongRecOn with
  | ind n ih =>
    by_cases hshorter : ∃ m < n, Chain d path m v
    · obtain ⟨m, hm, hchain⟩ := hshorter
      obtain ⟨k, hk, hhops⟩ := ih m hm hchain
      exact ⟨k, Nat.le_trans hk (Nat.le_of_lt hm), hhops⟩
    · exact ⟨n, Nat.le_refl n, h, fun m hm hchain => hshorter ⟨m, hm, hchain⟩⟩

theorem hops_zero : Hops d path v 0 ↔ v = path := by
  constructor
  · rintro ⟨hchain, -⟩
    cases hchain
    rfl
  · rintro rfl
    exact ⟨.here, fun m hm => absurd hm (Nat.not_lt_zero m)⟩

theorem Hops.next (h : Hops d path v (n + 1)) : ∃ w, d.Imports v w ∧ Hops d path w n := by
  obtain ⟨hchain, hleast⟩ := h
  cases hchain with
  | @hop _ _ w hstep hrest =>
    exact ⟨w, hstep, hrest, fun m hm hshort => hleast (m + 1) (Nat.succ_lt_succ hm) (.hop hstep hshort)⟩

/-! ### What a wave notes -/

theorem find?_note {depth : Nat} (l : List String) : ∀ (wv : Wave) (u : String),
    (l.foldl (Wave.note path depth) wv).seen.find? u
        = (wv.seen.find? u).or (if u ∈ l ∧ u ≠ path then some depth else none) ∧
    (((l.foldl (Wave.note path depth) wv).next.find? u).isSome
        ↔ (wv.next.find? u).isSome ∨ u ∈ l ∧ u ≠ path ∧ wv.seen.find? u = none) := by
  induction l with
  | nil =>
    intro wv u
    simp
  | cons a l ih =>
    intro wv u
    rw [foldl_cons]
    obtain ⟨hseen, hnext⟩ := ih (Wave.note path depth wv a) u
    rw [hseen, hnext, Wave.note]
    by_cases hnew : a ≠ path ∧ wv.seen.find? a = none
    · rw [if_pos hnew, OrdMap.find?_insert, OrdMap.find?_insert]
      by_cases hu : u = a
      · subst hu
        simp [hnew.1, hnew.2]
      · simp [hu]
    · rw [if_neg hnew]
      by_cases hu : u = a
      · subst hu
        rw [not_and, ne_eq] at hnew
        by_cases hpath : u = path
        · simp [hpath]
        · obtain ⟨k, hk⟩ := Option.ne_none_iff_exists'.mp (hnew hpath)
          simp [hk]
      · simp [hu]

theorem mem_wave_list {frontier : List String} :
    v ∈ frontier.flatMap d.importedBy ↔ ∃ w ∈ frontier, d.Imports v w := by
  rw [mem_flatMap]
  exact exists_congr (fun w => and_congr_right (fun _ => mem_importedBy))

/-- What the search has seen and where it stands when the files at `k` hops are the frontier. -/
structure Waved (d : DependencyIndex) (path : String) (k : Nat) (frontier : List String)
    (seen : OrdMap String Nat) : Prop where
  seen : ∀ v n, seen.find? v = some n ↔ v ≠ path ∧ n ≤ k ∧ Hops d path v n
  frontier : ∀ v, v ∈ frontier ↔ Hops d path v k

theorem waved_start : Waved d path 0 [path] .empty where
  seen := fun v n => by
    refine iff_of_false (by simp) ?_
    rintro ⟨hpath, hn, hhops⟩
    obtain rfl : n = 0 := Nat.le_zero.mp hn
    exact hpath (hops_zero.mp hhops)
  frontier := fun v => by rw [mem_singleton, hops_zero]

/-- **One wave** reaches the files one hop further. -/
theorem Waved.wave {k : Nat} {frontier : List String} {seen : OrdMap String Nat}
    (h : Waved d path k frontier seen) :
    Waved d path (k + 1) (d.wave path (k + 1) frontier seen).next.keys
      (d.wave path (k + 1) frontier seen).seen := by
  have hlist : ∀ v, v ∈ frontier.flatMap d.importedBy ↔ ∃ w, Hops d path w k ∧ d.Imports v w := by
    intro v
    rw [mem_wave_list]
    exact exists_congr (fun w => and_congr_left (fun _ => h.frontier w))
  have hnew : ∀ v, (v ∈ frontier.flatMap d.importedBy ∧ v ≠ path ∧ seen.find? v = none)
      ↔ Hops d path v (k + 1) := by
    intro v
    rw [hlist]
    constructor
    · rintro ⟨⟨w, hw, hstep⟩, hpath, hunseen⟩
      obtain ⟨m, hm, hhops⟩ := (Chain.hop hstep hw.1).hops
      rcases Nat.lt_or_eq_of_le hm with hlt | rfl
      · have hseen := (h.seen v m).mpr ⟨hpath, Nat.le_of_lt_succ hlt, hhops⟩
        rw [hunseen] at hseen
        cases hseen
      · exact hhops
    · intro hhops
      obtain ⟨w, hstep, hw⟩ := hhops.next
      refine ⟨⟨w, hw, hstep⟩, ?_, ?_⟩
      · rintro rfl
        exact absurd (hhops.unique (hops_zero.mpr rfl)) (Nat.succ_ne_zero k)
      · by_contra hsome
        obtain ⟨n, hn⟩ := Option.ne_none_iff_exists'.mp hsome
        obtain ⟨-, hle, hhops'⟩ := (h.seen v n).mp hn
        have := hhops.unique hhops'
        omega
  have hfold : d.wave path (k + 1) frontier seen
      = (frontier.flatMap d.importedBy).foldl (Wave.note path (k + 1)) ⟨seen, .empty⟩ :=
    foldl_flatMap.symm
  rw [hfold]
  refine ⟨fun v n => ?_, fun v => ?_⟩
  · rw [(find?_note _ _ v).1]
    cases hv : seen.find? v with
    | some m =>
      obtain ⟨hpath, hle, hhops⟩ := (h.seen v m).mp hv
      rw [Option.some_or, Option.some.injEq]
      constructor
      · rintro rfl
        exact ⟨hpath, Nat.le_succ_of_le hle, hhops⟩
      · exact fun hn => hhops.unique hn.2.2
    | none =>
      rw [Option.none_or, Option.ite_none_right_eq_some, Option.some.injEq]
      constructor
      · rintro ⟨⟨hmem, hpath⟩, rfl⟩
        exact ⟨hpath, Nat.le_refl _, (hnew v).mp ⟨hmem, hpath, hv⟩⟩
      · rintro ⟨hpath, hle, hhops⟩
        have hlast : n = k + 1 := by
          by_contra hne
          have hseen := (h.seen v n).mpr ⟨hpath, by omega, hhops⟩
          rw [hv] at hseen
          cases hseen
        subst hlast
        exact ⟨⟨((hnew v).mpr hhops).1, hpath⟩, rfl⟩
  · rw [OrdMap.mem_keys, ← Option.isSome_iff_exists, (find?_note _ _ v).2, ← hnew]
    simp

/-- **The loop over the depths** notes every file within its reach with its hops. -/
theorem impactFrom_spec (turns : Nat) : ∀ {k : Nat} {frontier : List String}
    {seen : OrdMap String Nat}, Waved d path k frontier seen → ∀ v n,
    (d.impactFrom path turns (k + 1) frontier seen).find? v = some n
      ↔ v ≠ path ∧ n ≤ k + turns ∧ Hops d path v n := by
  induction turns with
  | zero => exact fun h => h.seen
  | succ turns ih =>
    intro k frontier seen h v n
    have hwave := h.wave
    rw [impactFrom]
    by_cases hlast : (d.wave path (k + 1) frontier seen).next.keys = []
    · rw [if_pos hlast, hwave.seen]
      -- no file is so many hops away, so none is further away
      have hnone : ∀ m u, k + 1 ≤ m → ¬ Hops d path u m := by
        intro m
        induction m with
        | zero => intro u hm; omega
        | succ m ihm =>
          intro u hm hhops
          rcases Nat.lt_or_eq_of_le hm with hlt | heq
          · obtain ⟨w, -, hw⟩ := hhops.next
            exact ihm w (Nat.le_of_lt_succ hlt) hw
          · have hmem := (hwave.frontier u).mpr (heq ▸ hhops)
            rw [hlast] at hmem
            cases hmem
      refine and_congr_right (fun _ => and_congr_left (fun hhops => ?_))
      have hle : ¬ k + 1 ≤ n := fun h => hnone n v h hhops
      omega
    · rw [if_neg hlast, ih hwave, Nat.add_assoc, Nat.add_comm 1 turns]

theorem byHops_iff {a b : String × Nat} :
    byHops a b = true ↔ a.2 < b.2 ∨ a.2 = b.2 ∧ a.1 ≤ b.1 := by
  simp [byHops]

theorem byHops_trans (a b c : String × Nat) (hab : byHops a b = true) (hbc : byHops b c = true) :
    byHops a c = true := by
  rw [byHops_iff] at *
  rcases hab with hlt | ⟨heq, hle⟩
  · rcases hbc with hlt' | ⟨heq', -⟩
    · exact .inl (Nat.lt_trans hlt hlt')
    · exact .inl (heq' ▸ hlt)
  · rcases hbc with hlt' | ⟨heq', hle'⟩
    · exact .inl (heq ▸ hlt')
    · exact .inr ⟨heq.trans heq', le_trans hle hle'⟩

theorem byHops_total (a b : String × Nat) : (byHops a b || byHops b a) = true := by
  rw [Bool.or_eq_true, byHops_iff, byHops_iff]
  rcases Nat.lt_trichotomy a.2 b.2 with hlt | heq | hlt
  · exact .inl (.inl hlt)
  · exact (le_total a.1 b.1).imp (fun hle => .inr ⟨heq, hle⟩) (fun hle => .inr ⟨heq.symm, hle⟩)
  · exact .inr (.inl hlt)

/-- **`impact` returns the files within reach, each with its number of hops.** -/
theorem impact_spec (d : DependencyIndex) (path : String) (maxDepth : Nat) :
    Impacted d path (max maxDepth 1) (d.impact path maxDepth) where
  mem := fun v n => by
    rw [impact, mem_mergeSort, OrdMap.mem_entries, impactFrom_spec _ waved_start, Nat.zero_add]
  sorted := by
    have hnodup : (d.impact path maxDepth).Nodup := by
      rw [impact, (mergeSort_perm _ _).nodup_iff]
      refine List.Pairwise.imp ?_ (d.impactFrom path (max maxDepth 1) 1 [path] .empty).sorted
      rintro a b hlt rfl
      exact lt_irrefl _ hlt
    refine ((pairwise_mergeSort byHops_trans byHops_total _).and hnodup).imp ?_
    intro a b hab
    obtain ⟨hle, hne⟩ := hab
    rcases byHops_iff.mp hle with hlt | ⟨heq, hle⟩
    · exact .inl hlt
    · exact .inr ⟨heq, lt_of_le_of_ne hle (fun h => hne (Prod.ext h heq))⟩

end DependencyIndex

end Retrieval

end Modbit
