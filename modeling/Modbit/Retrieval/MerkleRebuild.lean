import Modbit.Retrieval.Merkle
import Modbit.Lib.Run

/-!
# Incremental updates and rebuilds

`Consistent` says of a map of directories what a rebuild from the same leaves would put
in it, and by `Consistent.unique` there is only one such map.  A build is consistent, and
a call of `apply_changes` keeps a consistent index so as long as it leaves the root
pseudo-directory alone: the index materialises it as soon as there is a top-level file,
and then takes it for a directory inside itself.

`applyChanges_rebuilds` follows a run whose calls are all `Safe`.
-/

namespace Modbit

open Lib List

namespace Merkle

/-! ### Directories and their parents -/

theorem dirOf_empty : dirOf "" = "" := rfl

theorem lt_append {l r : List Char} (h : r ≠ []) : l < l ++ r := by
  induction l with
  | nil =>
    obtain ⟨c, r, rfl⟩ := exists_cons_of_ne_nil h
    exact nil_lt_cons c r
  | cons c l ih => exact cons_lt_cons_iff.mpr (Or.inr ⟨rfl, ih⟩)

variable {d : String}

theorem dirOf_append (h : d ≠ "") : ∃ rest, rest ≠ [] ∧ d.toList = (dirOf d).toList ++ rest := by
  rw [dirOf]
  cases hs : Text.rsplitOnce '/' d.toList with
  | none => exact ⟨d.toList, fun he => h (String.toList_eq_nil_iff.mp he), rfl⟩
  | some p =>
    refine ⟨'/' :: p.2, cons_ne_nil _ _, ?_⟩
    rw [String.toList_ofList]
    exact Text.append_of_rsplitOnce hs

theorem dirOf_lt (h : d ≠ "") : dirOf d < d := by
  obtain ⟨rest, hne, hd⟩ := dirOf_append h
  rw [String.lt_iff, hd]
  exact lt_append hne

theorem dirOf_length (h : d ≠ "") : (dirOf d).toList.length < d.toList.length := by
  obtain ⟨rest, hne, hd⟩ := dirOf_append h
  have hpos := length_pos_of_ne_nil hne
  rw [hd, length_append]
  omega

theorem dirOf_le (d : String) : dirOf d ≤ d := by
  by_cases h : d = ""
  · rw [h]
    exact le_refl _
  · exact le_of_lt (dirOf_lt h)

theorem dirOf_ne (h : d ≠ "") : dirOf d ≠ d := ne_of_lt (dirOf_lt h)

theorem ne_of_dirOf_eq {d k : String} (h : d ≠ "") (hk : dirOf k = d) : k ≠ d := by
  rintro rfl
  exact dirOf_ne h hk

/-! ### Chains -/

theorem chainFrom_stable (d : String) : ∀ n, d.toList.length ≤ n →
    chainFrom n d = chainFrom d.toList.length d := by
  induction hlen : d.toList.length using Nat.strong_induction_on generalizing d with
  | _ len ih =>
    intro n hn
    by_cases hd : d = ""
    · subst hd
      have h0 : len = 0 := hlen.symm
      subst h0
      cases n with
      | zero => rfl
      | succ n => rfl
    · have hlt := dirOf_length hd
      rw [hlen] at hlt
      obtain ⟨m, rfl⟩ : ∃ m, len = m + 1 := ⟨len - 1, by omega⟩
      obtain ⟨n', rfl⟩ : ∃ n', n = n' + 1 := ⟨n - 1, by omega⟩
      rw [chainFrom, chainFrom, if_neg hd, if_neg hd]
      rw [ih _ hlt (dirOf d) rfl n' (by omega), ih _ hlt (dirOf d) rfl m (by omega)]

theorem chain_eq (h : d ≠ "") : chain d = d :: chain (dirOf d) := by
  have hlt := dirOf_length h
  obtain ⟨m, hm⟩ : ∃ m, d.toList.length = m + 1 := ⟨d.toList.length - 1, by omega⟩
  rw [chain, hm, chainFrom, if_neg h, chainFrom_stable (dirOf d) m (by omega)]
  rfl

theorem dir_induction {P : String → Prop} (root : P "")
    (below : ∀ e, e ≠ "" → P (dirOf e) → P e) (e : String) : P e := by
  induction hlen : e.toList.length using Nat.strong_induction_on generalizing e with
  | _ len ih =>
    by_cases he : e = ""
    · rw [he]
      exact root
    · exact below e he (ih _ (hlen ▸ dirOf_length he) (dirOf e) rfl)

variable {e : String}

theorem ne_empty_of_mem_chain : d ∈ chain e → d ≠ "" := by
  induction e using dir_induction with
  | root => intro h; cases h
  | below e he ih =>
    intro h
    rw [chain_eq he] at h
    rcases mem_cons.mp h with rfl | h
    · exact he
    · exact ih h

theorem mem_chain_self (h : d ≠ "") : d ∈ chain d := by
  rw [chain_eq h]
  exact mem_cons_self

theorem dirOf_mem_chain (hd : dirOf d ≠ "") : d ∈ chain e → dirOf d ∈ chain e := by
  induction e using dir_induction with
  | root => intro h; cases h
  | below e he ih =>
    intro h
    rw [chain_eq he] at h ⊢
    rcases mem_cons.mp h with rfl | h
    · exact mem_cons_of_mem _ (mem_chain_self hd)
    · exact mem_cons_of_mem _ (ih h)

theorem exists_child_in_chain : d ∈ chain e → d ≠ e → ∃ k ∈ chain e, dirOf k = d := by
  induction e using dir_induction with
  | root => intro h; cases h
  | below e he ih =>
    intro h hne
    rw [chain_eq he] at h ⊢
    rcases mem_cons.mp h with rfl | h
    · exact absurd rfl hne
    · by_cases hd : d = dirOf e
      · exact ⟨e, mem_cons_self, hd.symm⟩
      · obtain ⟨k, hk, hkd⟩ := ih h hd
        exact ⟨k, mem_cons_of_mem _ hk, hkd⟩

theorem length_le_of_mem_chain : d ∈ chain e → d.toList.length ≤ e.toList.length := by
  induction e using dir_induction with
  | root => intro h; cases h
  | below e he ih =>
    intro h
    have hlt := dirOf_length he
    rw [chain_eq he] at h
    rcases mem_cons.mp h with rfl | h
    · exact Nat.le_refl _
    · have := ih h
      omega

variable {p : String}

theorem mem_dirsAbove : d ∈ dirsAbove p ↔ d ∈ ancestorChain p ∨ d = dirOf p := by
  rw [dirsAbove, mem_append, mem_singleton]

theorem mem_dirsAbove_of_ne (h : d ≠ "") : d ∈ dirsAbove p ↔ d ∈ ancestorChain p := by
  rw [mem_dirsAbove]
  constructor
  · rintro (hd | rfl)
    · exact hd
    · exact mem_chain_self h
  · exact Or.inl

theorem empty_mem_dirsAbove : "" ∈ dirsAbove p ↔ dirOf p = "" := by
  rw [mem_dirsAbove]
  constructor
  · rintro (h | h)
    · exact absurd rfl (ne_empty_of_mem_chain h)
    · exact h.symm
  · intro h
    exact Or.inr h.symm

theorem mem_deepestFirst {l : List String} : d ∈ deepestFirst l ↔ d ∈ l := by
  rw [deepestFirst, mem_reverse, mem_dedup, mem_insertionSort]

theorem deepestFirst_descending (l : List String) :
    (deepestFirst l).Pairwise (fun a b => b < a) := by
  rw [deepestFirst, pairwise_reverse]
  have hsorted : (l.insertionSort (· ≤ ·)).dedup.Pairwise (· ≤ ·) :=
    (pairwise_insertionSort _ l).sublist (dedup_sublist _)
  have hnodup : (l.insertionSort (· ≤ ·)).dedup.Pairwise (· ≠ ·) := nodup_dedup _
  exact (hsorted.and hnodup).imp (fun h => lt_of_le_of_ne h.1 h.2)

/-! ### What a rebuild holds -/

def IsDir (leaves : OrdMap String String) (d : String) : Prop :=
  ∃ p ∈ leaves.keys, d ∈ ancestorChain p

variable {leaves : OrdMap String String}

theorem hasFiles_iff : hasFiles leaves d = true ↔ ∃ p ∈ leaves.keys, dirOf p = d := by
  rw [hasFiles, any_eq_true]
  simp only [decide_eq_true_eq]

theorem hasSubdirs_iff {dirs : OrdMap String String} :
    hasSubdirs dirs d = true ↔ ∃ k ∈ dirs.keys, k ≠ d ∧ dirOf k = d := by
  rw [hasSubdirs, any_eq_true]
  simp only [Bool.and_eq_true, decide_eq_true_eq]

theorem IsDir.ne_empty (h : IsDir leaves d) : d ≠ "" := by
  obtain ⟨p, -, hd⟩ := h
  exact ne_empty_of_mem_chain hd

theorem isDir_iff (hd : d ≠ "") :
    IsDir leaves d ↔ hasFiles leaves d = true ∨ ∃ k, dirOf k = d ∧ IsDir leaves k := by
  rw [hasFiles_iff]
  constructor
  · rintro ⟨p, hp, hmem⟩
    by_cases he : d = dirOf p
    · exact Or.inl ⟨p, hp, he.symm⟩
    · obtain ⟨k, hk, hkd⟩ := exists_child_in_chain hmem he
      exact Or.inr ⟨k, hkd, p, hp, hk⟩
  · rintro (⟨p, hp, rfl⟩ | ⟨k, rfl, p, hp, hmem⟩)
    · exact ⟨p, hp, mem_chain_self hd⟩
    · exact ⟨p, hp, dirOf_mem_chain hd hmem⟩

variable {sha : List UInt8 → String} {leaves leaves' dirs dirs' : OrdMap String String} {d : String}

theorem childrenIn_congr (h : ∀ k, dirOf k = d → dirs.find? k = dirs'.find? k) :
    childrenIn dirs d = childrenIn dirs' d := by
  have hsame := OrdMap.filter_entries_congr (p := fun k => dirOf k = d)
    (fun k hk => h k (of_decide_eq_true hk))
  rw [childrenIn, childrenIn, hsame]

theorem computeDir_congr (h : ∀ k, dirOf k = d → dirs.find? k = dirs'.find? k) :
    computeDir sha leaves dirs d = computeDir sha leaves dirs' d := by
  rw [computeDir, computeDir, childrenIn_congr h]

theorem hasSubdirs_congr (h : ∀ k, dirOf k = d → dirs.find? k = dirs'.find? k) :
    hasSubdirs dirs d = hasSubdirs dirs' d := by
  rw [Bool.eq_iff_iff, hasSubdirs_iff, hasSubdirs_iff]
  refine exists_congr (fun k => ?_)
  rw [OrdMap.mem_keys, OrdMap.mem_keys]
  constructor
  · rintro ⟨⟨v, hv⟩, hne, hk⟩
    exact ⟨⟨v, h k hk ▸ hv⟩, hne, hk⟩
  · rintro ⟨⟨v, hv⟩, hne, hk⟩
    exact ⟨⟨v, (h k hk).symm ▸ hv⟩, hne, hk⟩

/-- The directories a rebuild from the leaves would hold, the root left out. -/
structure OffRoot (sha : List UInt8 → String) (leaves dirs : OrdMap String String) : Prop where
  dir : ∀ d, IsDir leaves d → dirs.find? d = some (computeDir sha leaves dirs d)
  absent : ∀ d, d ≠ "" → ¬ IsDir leaves d → dirs.find? d = none

/-- The directories a rebuild from the leaves would hold. -/
structure Consistent (sha : List UInt8 → String) (leaves dirs : OrdMap String String) : Prop where
  offRoot : OffRoot sha leaves dirs
  root : dirs.find? "" = if hasFiles leaves "" then
    some (computeDir sha leaves (dirs.erase "") "") else none

theorem exists_length_bound (l : List String) : ∃ bound, ∀ p ∈ l, p.toList.length ≤ bound := by
  induction l with
  | nil => exact ⟨0, fun p hp => absurd hp not_mem_nil⟩
  | cons a l ih =>
    obtain ⟨bound, hbound⟩ := ih
    refine ⟨max a.toList.length bound, fun p hp => ?_⟩
    rcases mem_cons.mp hp with rfl | hp
    · exact le_max_left _ _
    · exact le_trans (hbound p hp) (le_max_right _ _)

theorem longest_first {P : String → Prop} (bound : Nat)
    (long : ∀ d, d ≠ "" → bound < d.toList.length → P d)
    (step : ∀ d, d ≠ "" → (∀ k, dirOf k = d → P k) → P d) : ∀ d, d ≠ "" → P d := by
  have hn : ∀ n d, d ≠ "" → bound < d.toList.length + n → P d := by
    intro n
    induction n with
    | zero => exact fun d hd hlen => long d hd hlen
    | succ n ih =>
      intro d hd hlen
      refine step d hd (fun k hk => ?_)
      have hk0 : k ≠ "" := fun h0 => hd (by rw [← hk, h0, dirOf_empty])
      have hlt := dirOf_length hk0
      rw [hk] at hlt
      exact ih k hk0 (by omega)
  exact fun d hd => hn (bound + 1) d hd (by omega)

theorem OffRoot.unique (h : OffRoot sha leaves dirs) (h' : OffRoot sha leaves dirs') :
    ∀ d, d ≠ "" → dirs.find? d = dirs'.find? d := by
  obtain ⟨bound, hbound⟩ : ∃ bound, ∀ d, IsDir leaves d → d.toList.length ≤ bound := by
    obtain ⟨bound, hbound⟩ := exists_length_bound leaves.keys
    refine ⟨bound, ?_⟩
    rintro d ⟨p, hp, hd⟩
    have hle := hbound p hp
    have hchain : d.toList.length ≤ (dirOf p).toList.length := length_le_of_mem_chain hd
    have hdir : (dirOf p).toList.length ≤ p.toList.length := by
      by_cases hp0 : p = ""
      · rw [hp0]
        exact Nat.le_refl 0
      · exact Nat.le_of_lt (dirOf_length hp0)
    omega
  refine longest_first bound (fun d hd hlen => ?_) (fun d hd ih => ?_)
  · have hnot : ¬ IsDir leaves d := fun hdir => by
      have := hbound d hdir
      omega
    rw [h.absent d hd hnot, h'.absent d hd hnot]
  · by_cases hdir : IsDir leaves d
    · rw [h.dir d hdir, h'.dir d hdir]
      exact congrArg some (computeDir_congr ih)
    · rw [h.absent d hd hdir, h'.absent d hd hdir]

theorem computeDir_erase (h : ∀ d, d ≠ "" → dirs.find? d = dirs'.find? d) :
    computeDir sha leaves (dirs.erase "") "" = computeDir sha leaves (dirs'.erase "") "" := by
  refine computeDir_congr (fun k _ => ?_)
  rw [OrdMap.find?_erase, OrdMap.find?_erase]
  split_ifs with hk
  · rfl
  · exact h k hk

/-- **There is one consistent map of directories.** -/
theorem Consistent.unique (h : Consistent sha leaves dirs) (h' : Consistent sha leaves dirs') :
    dirs = dirs' := by
  have hnonroot := h.offRoot.unique h'.offRoot
  refine OrdMap.ext (fun d => ?_)
  by_cases hd : d = ""
  · subst hd
    rw [h.root, h'.root, computeDir_erase hnonroot]
  · exact hnonroot d hd

theorem hasEntries_iff (hd : d ≠ "")
    (h : ∀ k, dirOf k = d → ((∃ v, dirs.find? k = some v) ↔ IsDir leaves k)) :
    (hasFiles leaves d || hasSubdirs dirs d) = true ↔ IsDir leaves d := by
  have hsub : hasSubdirs dirs d = true ↔ ∃ k, dirOf k = d ∧ IsDir leaves k := by
    rw [hasSubdirs_iff]
    refine exists_congr (fun k => ?_)
    constructor
    · rintro ⟨hk, -, hkd⟩
      exact ⟨hkd, (h k hkd).mp (OrdMap.mem_keys.mp hk)⟩
    · rintro ⟨hkd, hk⟩
      exact ⟨OrdMap.mem_keys.mpr ((h k hkd).mpr hk), ne_of_dirOf_eq hd hkd, hkd⟩
  rw [isDir_iff hd, ← hsub, Bool.or_eq_true]

theorem OffRoot.isSome_iff (h : OffRoot sha leaves dirs) (hd : d ≠ "") :
    (∃ v, dirs.find? d = some v) ↔ IsDir leaves d := by
  constructor
  · rintro ⟨v, hv⟩
    by_contra hnot
    rw [h.absent d hd hnot] at hv
    cases hv
  · intro hdir
    exact ⟨_, h.dir d hdir⟩

/-! ### A build -/

def buildRule (sha : List UInt8 → String) (leaves : OrdMap String String) (dir : String)
    (dirs : OrdMap String String) : Option String :=
  some (computeDir sha leaves dirs dir)

theorem buildRule_looksUp (sha : List UInt8 → String) (leaves : OrdMap String String) :
    OrdMap.LooksUp (buildRule sha leaves) := by
  intro d dirs dirs' h
  refine congrArg some (computeDir_congr (fun k hk => ?_))
  exact h k (hk ▸ dirOf_le k)

theorem computeDir_put (hd : d ≠ "") (v : Option String) :
    computeDir sha leaves (dirs.put d v) d = computeDir sha leaves dirs d := by
  refine computeDir_congr (fun k hk => ?_)
  rw [OrdMap.find?_put, if_neg (ne_of_dirOf_eq hd hk)]

theorem mem_buildDirs :
    d ∈ deepestFirst (leaves.keys.flatMap dirsAbove) ↔ ∃ p ∈ leaves.keys, d ∈ dirsAbove p := by
  rw [mem_deepestFirst, mem_flatMap]

theorem build_dirs (sha : List UInt8 → String) (files : Files) (revision : Nat) :
    (build sha files revision).dirs =
      (deepestFirst ((files.mapValues sha).keys.flatMap dirsAbove)).foldl
        (OrdMap.settle (buildRule sha (files.mapValues sha))) .empty := rfl

theorem build_consistent (files : Files) (revision : Nat) :
    Consistent sha (build sha files revision).leaves (build sha files revision).dirs := by
  rw [build_dirs]
  show Consistent sha (files.mapValues sha) _
  generalize files.mapValues sha = leaves
  obtain ⟨hout, hin⟩ := OrdMap.settled_of_descending (buildRule_looksUp sha leaves)
    (deepestFirst (leaves.keys.flatMap dirsAbove)) .empty (deepestFirst_descending _)
  refine ⟨⟨fun d hd => ?_, fun d hd hnot => ?_⟩, ?_⟩
  · obtain ⟨p, hp, hmem⟩ := hd
    have hd0 := ne_empty_of_mem_chain hmem
    rw [hin d (mem_buildDirs.mpr ⟨p, hp, (mem_dirsAbove_of_ne hd0).mpr hmem⟩), buildRule,
      computeDir_put hd0]
  · refine hout d (fun hmem => hnot ?_)
    obtain ⟨p, hp, hmem⟩ := mem_buildDirs.mp hmem
    exact ⟨p, hp, (mem_dirsAbove_of_ne hd).mp hmem⟩
  · split_ifs with hfiles
    · obtain ⟨p, hp, hdir⟩ := hasFiles_iff.mp hfiles
      exact hin "" (mem_buildDirs.mpr ⟨p, hp, empty_mem_dirsAbove.mpr hdir⟩)
    · refine hout "" (fun hmem => hfiles ?_)
      obtain ⟨p, hp, hmem⟩ := mem_buildDirs.mp hmem
      exact hasFiles_iff.mpr ⟨p, hp, empty_mem_dirsAbove.mp hmem⟩

/-! ### A call -/

def touchRule (sha : List UInt8 → String) (leaves : OrdMap String String) (dir : String)
    (dirs : OrdMap String String) : Option String :=
  if hasFiles leaves dir || hasSubdirs dirs dir then some (computeDir sha leaves dirs dir) else none

theorem touchRule_looksUp (sha : List UInt8 → String) (leaves : OrdMap String String) :
    OrdMap.LooksUp (touchRule sha leaves) := by
  intro d dirs dirs' h
  have hsame : ∀ k, dirOf k = d → dirs.find? k = dirs'.find? k :=
    fun k hk => h k (hk ▸ dirOf_le k)
  rw [touchRule, touchRule, hasSubdirs_congr hsame, computeDir_congr hsame]

theorem touchDir_fst (st : OrdMap String String × List Recomputed) (dir : String) :
    (touchDir sha leaves st dir).1 = OrdMap.settle (touchRule sha leaves) st.1 dir := by
  rw [OrdMap.settle, touchRule, touchDir]
  split_ifs with hhas hsame hsome
  · rw [← hsame, OrdMap.put_find?]
  · rfl
  · rfl
  · have hnone : st.1.find? dir = none := Option.not_isSome_iff_eq_none.mp hsome
    rw [← hnone, OrdMap.put_find?]

variable {st : OrdMap String String × List Recomputed}

theorem touchDir_same {dir : String}
    (h : touchRule sha leaves dir st.1 = st.1.find? dir) : touchDir sha leaves st dir = st := by
  rw [touchRule] at h
  rw [touchDir]
  split_ifs at h ⊢ with hhas hsame hsome
  · rfl
  · exact absurd h.symm hsame
  · rw [← h] at hsome
    cases hsome
  · rfl

theorem foldl_touchDir_fst (touched : List String) :
    ∀ st : OrdMap String String × List Recomputed,
    (touched.foldl (touchDir sha leaves) st).1
      = touched.foldl (OrdMap.settle (touchRule sha leaves)) st.1 := by
  induction touched with
  | nil => intro st; rfl
  | cons d touched ih =>
    intro st
    rw [foldl_cons, ih, touchDir_fst, foldl_cons]

def touchedBy (paths : List String) : List String := deepestFirst (paths.flatMap dirsAbove)

variable {paths : List String}

theorem mem_touchedBy : d ∈ touchedBy paths ↔ ∃ p ∈ paths, d ∈ dirsAbove p := by
  rw [touchedBy, mem_deepestFirst, mem_flatMap]

theorem not_mem_of_untouched (hd : d ∉ touchedBy paths) (hp : dirOf p = d) : p ∉ paths := by
  intro hmem
  exact hd (mem_touchedBy.mpr ⟨p, hmem, mem_dirsAbove.mpr (Or.inr hp.symm)⟩)

theorem untouched_child (hd0 : d ≠ "") (hd : d ∉ touchedBy paths)
    {k : String} (hk : dirOf k = d) : k ∉ touchedBy paths := by
  intro hmem
  obtain ⟨p, hp, hk'⟩ := mem_touchedBy.mp hmem
  have hk0 : k ≠ "" := fun h0 => hd0 (by rw [← hk, h0, dirOf_empty])
  have hup : dirOf k ∈ ancestorChain p :=
    dirOf_mem_chain (hk ▸ hd0) ((mem_dirsAbove_of_ne hk0).mp hk')
  exact hd (mem_touchedBy.mpr ⟨p, hp, hk ▸ mem_dirsAbove.mpr (Or.inl hup)⟩)

theorem isDir_of_untouched (hd0 : d ≠ "") (hd : d ∉ touchedBy paths)
    (hleaves : ∀ p ∉ paths, leaves.find? p = leaves'.find? p) (h : IsDir leaves d) :
    IsDir leaves' d := by
  obtain ⟨p, hp, hmem⟩ := h
  have hpath : p ∉ paths :=
    fun hin => hd (mem_touchedBy.mpr ⟨p, hin, (mem_dirsAbove_of_ne hd0).mpr hmem⟩)
  obtain ⟨v, hv⟩ := OrdMap.mem_keys.mp hp
  rw [hleaves p hpath] at hv
  exact ⟨p, OrdMap.mem_keys.mpr ⟨v, hv⟩, hmem⟩

/-- The directories after a pass over the touched ones. -/
def settledDirs (sha : List UInt8 → String) (leaves dirs : OrdMap String String)
    (paths : List String) : OrdMap String String :=
  (touchedBy paths).foldl (OrdMap.settle (touchRule sha leaves)) dirs

section Settled

variable {paths : List String} (h : OffRoot sha leaves dirs)
  (hleaves : ∀ p ∉ paths, leaves.find? p = leaves'.find? p)

theorem settled_untouched (hd : d ∉ touchedBy paths) :
    (settledDirs sha leaves' dirs paths).find? d = dirs.find? d :=
  (OrdMap.settled_of_descending (touchRule_looksUp sha leaves') (touchedBy paths) dirs
    (deepestFirst_descending _)).1 d hd

theorem settled_touched (hd : d ∈ touchedBy paths) :
    (settledDirs sha leaves' dirs paths).find? d
      = touchRule sha leaves' d ((settledDirs sha leaves' dirs paths).put d (dirs.find? d)) :=
  (OrdMap.settled_of_descending (touchRule_looksUp sha leaves') (touchedBy paths) dirs
    (deepestFirst_descending _)).2 d hd

theorem settled_touched_of_ne (hd0 : d ≠ "") (hd : d ∈ touchedBy paths) :
    (settledDirs sha leaves' dirs paths).find? d
      = touchRule sha leaves' d (settledDirs sha leaves' dirs paths) := by
  have hself : ∀ k, dirOf k = d →
      ((settledDirs sha leaves' dirs paths).put d (dirs.find? d)).find? k
        = (settledDirs sha leaves' dirs paths).find? k := by
    intro k hk
    rw [OrdMap.find?_put, if_neg (ne_of_dirOf_eq hd0 hk)]
  rw [settled_touched hd, touchRule, touchRule, hasSubdirs_congr hself, computeDir_congr hself]

include h hleaves in
theorem settled_isSome : ∀ d, d ≠ "" →
    ((∃ v, (settledDirs sha leaves' dirs paths).find? d = some v) ↔ IsDir leaves' d) := by
  obtain ⟨bound, hbound⟩ :=
    exists_length_bound ((settledDirs sha leaves' dirs paths).keys ++ leaves'.keys)
  refine longest_first bound (fun d hd hlen => ?_) (fun d hd ih => ?_)
  · refine iff_of_false (fun hv => ?_) (fun hdir => ?_)
    · have := hbound d (mem_append_left _ (OrdMap.mem_keys.mpr hv))
      omega
    · obtain ⟨p, hp, hmem⟩ := hdir
      have hle := hbound p (mem_append_right _ hp)
      have hchain : d.toList.length ≤ (dirOf p).toList.length := length_le_of_mem_chain hmem
      have hp0 : p ≠ "" := fun h0 => by
        rw [h0] at hmem
        cases hmem
      have := dirOf_length hp0
      omega
  · by_cases htouched : d ∈ touchedBy paths
    · have hentries := hasEntries_iff hd ih
      rw [settled_touched_of_ne hd htouched, touchRule]
      split_ifs with hhas
      · exact iff_of_true ⟨_, rfl⟩ (hentries.mp hhas)
      · exact iff_of_false (fun ⟨v, hv⟩ => by cases hv) (fun hdir => hhas (hentries.mpr hdir))
    · rw [settled_untouched htouched, h.isSome_iff hd]
      exact ⟨isDir_of_untouched hd htouched hleaves,
        isDir_of_untouched hd htouched (fun p hp => (hleaves p hp).symm)⟩

include h hleaves in
theorem settled_dir (hd : IsDir leaves' d) :
    (settledDirs sha leaves' dirs paths).find? d
      = some (computeDir sha leaves' (settledDirs sha leaves' dirs paths) d) := by
  have hd0 := hd.ne_empty
  by_cases htouched : d ∈ touchedBy paths
  · obtain ⟨v, hv⟩ := (settled_isSome h hleaves d hd0).mpr hd
    have hrule : (settledDirs sha leaves' dirs paths).find? d
        = touchRule sha leaves' d (settledDirs sha leaves' dirs paths) :=
      settled_touched_of_ne hd0 htouched
    rw [hv, touchRule] at hrule
    rw [hv, hrule]
    split_ifs at hrule ⊢
    · rfl
  · have hold := isDir_of_untouched hd0 htouched (fun p hp => (hleaves p hp).symm) hd
    have hfiles : childrenIn leaves d = childrenIn leaves' d :=
      childrenIn_congr (fun p hp => hleaves p (not_mem_of_untouched htouched hp))
    have hdirs : childrenIn dirs d = childrenIn (settledDirs sha leaves' dirs paths) d :=
      childrenIn_congr (fun k hk => (settled_untouched (untouched_child hd0 htouched hk)).symm)
    rw [settled_untouched htouched, h.dir d hold, computeDir, computeDir, hfiles, hdirs]

include h hleaves in
/-- **The pass leaves every directory but the root as a rebuild would.** -/
theorem settled_offRoot : OffRoot sha leaves' (settledDirs sha leaves' dirs paths) := by
  refine ⟨fun d hd => settled_dir h hleaves hd, fun d hd hnot => ?_⟩
  cases hv : (settledDirs sha leaves' dirs paths).find? d with
  | none => rfl
  | some v => exact absurd ((settled_isSome h hleaves d hd).mp ⟨v, hv⟩) hnot

end Settled

/-! ### The files of a run -/

def Change.filesAfter (c : Change) (files : Files) : Files :=
  (files.eraseAll c.deleted).insertAll c.changed.entries

def editFiles (files : Files) (c : Change) : Files × Unit := (c.filesAfter files, ())

theorem find?_filesAfter (c : Change) (files : Files) (p : String) :
    (c.filesAfter files).find? p
      = (c.changed.find? p).or (if p ∈ c.deleted then none else files.find? p) := by
  rw [Change.filesAfter, OrdMap.find?_insertAll_entries, OrdMap.find?_eraseAll]

variable {c : Change} {files : Files}

theorem filesAfter_other (hp : p ∉ c.paths) : (c.filesAfter files).find? p = files.find? p := by
  have hdeleted : p ∉ c.deleted := fun h => hp (mem_append_left _ h)
  have hchanged : c.changed.find? p = none := by
    cases hc : c.changed.find? p with
    | none => rfl
    | some v => exact absurd (mem_append_right _ (OrdMap.mem_keys.mpr ⟨v, hc⟩)) hp
  rw [find?_filesAfter, hchanged, if_neg hdeleted, Option.none_or]

theorem foldl_removeLeaf_fst (deleted : List String) :
    ∀ st : OrdMap String String × List Recomputed,
    (deleted.foldl removeLeaf st).1 = st.1.eraseAll deleted := by
  induction deleted with
  | nil => intro st; rfl
  | cons p deleted ih => intro st; exact ih _

theorem foldl_changeLeaf_fst (changed : List (String × List UInt8)) :
    ∀ st : OrdMap String String × List Recomputed,
    (changed.foldl (changeLeaf sha) st).1
      = st.1.insertAll (changed.map (fun e => (e.1, sha e.2))) := by
  induction changed with
  | nil => intro st; rfl
  | cons e changed ih => intro st; exact ih _

variable {index : MerkleIndex}

theorem leaves_after (h : index.leaves = files.mapValues sha) (c : Change) :
    (index.applyChanges sha c).1.leaves = (c.filesAfter files).mapValues sha := by
  show (c.changed.entries.foldl (changeLeaf sha) (c.deleted.foldl removeLeaf (index.leaves, []))).1
    = _
  rw [foldl_changeLeaf_fst, foldl_removeLeaf_fst]
  refine OrdMap.ext (fun p => ?_)
  have hmap := OrdMap.find?_insertAll_entries (index.leaves.eraseAll c.deleted)
    (c.changed.mapValues sha) p
  rw [show (c.changed.mapValues sha).entries = c.changed.entries.map (fun e => (e.1, sha e.2))
    from rfl] at hmap
  rw [hmap, OrdMap.find?_mapValues, OrdMap.find?_mapValues, find?_filesAfter,
    OrdMap.find?_eraseAll, h, OrdMap.find?_mapValues]
  cases c.changed.find? p with
  | some v => rfl
  | none =>
    split_ifs
    · rfl
    · rfl

theorem dirs_after (h : index.leaves = files.mapValues sha) (c : Change) :
    (index.applyChanges sha c).1.dirs
      = settledDirs sha ((c.filesAfter files).mapValues sha) index.dirs c.paths := by
  have hleaves := leaves_after h c
  show (List.foldl (touchDir sha _) (index.dirs, _) (touchedBy c.paths)).1 = _
  rw [foldl_touchDir_fst]
  exact congrArg (fun leaves => settledDirs sha leaves index.dirs c.paths) hleaves

/-! ### The root pseudo-directory -/

def TopLevel (paths : List String) : Prop := ∃ p ∈ paths, dirOf p = ""

instance (paths : List String) : Decidable (TopLevel paths) :=
  inferInstanceAs (Decidable (∃ p ∈ paths, _))

/-- A call that leaves the root pseudo-directory as a rebuild would: without top-level
files before, it names a top-level path only to have a top-level file or no file at all
afterwards; with some, it removes everything, or changes nothing and names none. -/
def RootSafe (files : Files) (c : Change) : Prop :=
  if TopLevel files.keys then
    (c.filesAfter files).keys = [] ∨
      ((c.filesAfter files).entries = files.entries ∧ ¬ TopLevel c.paths)
  else TopLevel c.paths → TopLevel (c.filesAfter files).keys ∨ (c.filesAfter files).keys = []

/-- A safe call that, changing nothing, deletes nothing it also writes. -/
def Safe (files : Files) (c : Change) : Prop :=
  RootSafe files c ∧
    ((c.filesAfter files).entries = files.entries → ∀ p ∈ c.deleted, p ∉ c.changed.keys)

instance (files : Files) (c : Change) : Decidable (RootSafe files c) :=
  if h : TopLevel files.keys then
    decidable_of_iff ((c.filesAfter files).keys = [] ∨
      ((c.filesAfter files).entries = files.entries ∧ ¬ TopLevel c.paths)) (by
        rw [RootSafe, if_pos h])
  else
    decidable_of_iff (TopLevel c.paths →
      TopLevel (c.filesAfter files).keys ∨ (c.filesAfter files).keys = []) (by
        rw [RootSafe, if_neg h])

instance (files : Files) (c : Change) : Decidable (Safe files c) :=
  inferInstanceAs (Decidable (_ ∧ _))

theorem hasFiles_mapValues : hasFiles (files.mapValues sha) "" = true ↔ TopLevel files.keys := by
  rw [hasFiles_iff, TopLevel]
  refine exists_congr (fun p => and_congr_left (fun _ => ?_))
  rw [OrdMap.mem_keys, OrdMap.mem_keys, OrdMap.find?_mapValues]
  constructor
  · rintro ⟨v, hv⟩
    obtain ⟨w, hw, -⟩ := Option.map_eq_some_iff.mp hv
    exact ⟨w, hw⟩
  · rintro ⟨w, hw⟩
    exact ⟨sha w, by rw [hw]; rfl⟩

theorem empty_mem_touchedBy : "" ∈ touchedBy paths ↔ TopLevel paths := by
  rw [mem_touchedBy, TopLevel]
  exact exists_congr (fun p => and_congr_right (fun _ => empty_mem_dirsAbove))

theorem topLevel_other (hpaths : ¬ TopLevel c.paths) :
    TopLevel (c.filesAfter files).keys ↔ TopLevel files.keys := by
  refine exists_congr (fun p => and_congr_left (fun hp => ?_))
  rw [OrdMap.mem_keys, OrdMap.mem_keys, filesAfter_other (fun hmem => hpaths ⟨p, hmem, hp⟩)]

theorem eq_of_entries {V : Type} {m m' : OrdMap String V} (h : m.entries = m'.entries) :
    m = m' := by
  refine OrdMap.ext (fun k => ?_)
  rw [OrdMap.find?, OrdMap.find?, h]

theorem not_isDir_of_keys (h : files.keys = []) (d : String) : ¬ IsDir (files.mapValues sha) d := by
  rintro ⟨p, hp, -⟩
  obtain ⟨v, hv⟩ := OrdMap.mem_keys.mp hp
  rw [OrdMap.find?_mapValues] at hv
  obtain ⟨w, hw, -⟩ := Option.map_eq_some_iff.mp hv
  have hmem : p ∈ files.keys := OrdMap.mem_keys.mpr ⟨w, hw⟩
  rw [h] at hmem
  cases hmem

section Root

variable {files : Files} {c : Change}

theorem root_touched (h : Consistent sha (files.mapValues sha) dirs) (hsafe : RootSafe files c)
    (hpaths : TopLevel c.paths) {dirs' : OrdMap String String}
    (hoff : OffRoot sha ((c.filesAfter files).mapValues sha) dirs')
    (hroot : dirs'.find? "" = touchRule sha ((c.filesAfter files).mapValues sha) ""
      (dirs'.put "" (dirs.find? ""))) :
    dirs'.find? "" = if hasFiles ((c.filesAfter files).mapValues sha) "" then
      some (computeDir sha ((c.filesAfter files).mapValues sha) (dirs'.erase "") "") else none := by
  by_cases hempty : (c.filesAfter files).keys = []
  · have hfiles : ¬ hasFiles ((c.filesAfter files).mapValues sha) "" = true := by
      rw [hasFiles_mapValues, hempty]
      rintro ⟨p, hp, -⟩
      cases hp
    have hsub : ¬ hasSubdirs (dirs'.put "" (dirs.find? "")) "" = true := by
      rw [hasSubdirs_iff]
      rintro ⟨k, hk, hk0, -⟩
      obtain ⟨v, hv⟩ := OrdMap.mem_keys.mp hk
      rw [OrdMap.find?_put, if_neg hk0] at hv
      exact not_isDir_of_keys hempty k ((hoff.isSome_iff hk0).mp ⟨v, hv⟩)
    rw [hroot, touchRule, if_neg hfiles, if_neg]
    rw [Bool.or_eq_true]
    exact fun hor => hor.elim hfiles hsub
  · rw [RootSafe] at hsafe
    split_ifs at hsafe with htop
    · rcases hsafe with hsafe | ⟨-, hsafe⟩
      · exact absurd hsafe hempty
      · exact absurd hpaths hsafe
    · have hfiles : hasFiles ((c.filesAfter files).mapValues sha) "" = true :=
        hasFiles_mapValues.mpr ((hsafe hpaths).resolve_right hempty)
      -- the root was not materialised, so the digest is over the other directories
      have hnone : dirs.find? "" = none := by
        rw [h.root, if_neg (fun hf => htop (hasFiles_mapValues.mp hf))]
      rw [hroot, touchRule, hfiles, hnone]
      rfl

theorem root_untouched (h : Consistent sha (files.mapValues sha) dirs) (hsafe : RootSafe files c)
    (hpaths : ¬ TopLevel c.paths) {dirs' : OrdMap String String}
    (hoff : OffRoot sha ((c.filesAfter files).mapValues sha) dirs')
    (hroot : dirs'.find? "" = dirs.find? "") :
    dirs'.find? "" = if hasFiles ((c.filesAfter files).mapValues sha) "" then
      some (computeDir sha ((c.filesAfter files).mapValues sha) (dirs'.erase "") "") else none := by
  have htop : TopLevel (c.filesAfter files).keys ↔ TopLevel files.keys := topLevel_other hpaths
  by_cases hbefore : TopLevel files.keys
  · have hsame : c.filesAfter files = files := by
      rw [RootSafe, if_pos hbefore] at hsafe
      rcases hsafe with hempty | ⟨hentries, -⟩
      · obtain ⟨p, hp, -⟩ := htop.mpr hbefore
        rw [hempty] at hp
        cases hp
      · exact eq_of_entries hentries
    rw [hsame] at hoff ⊢
    rw [hroot, h.root, computeDir_erase (h.offRoot.unique hoff)]
  · rw [hroot, h.root, if_neg (fun hf => hbefore (hasFiles_mapValues.mp hf)),
      if_neg (fun hf => hbefore (htop.mp (hasFiles_mapValues.mp hf)))]

/-- **A safe call keeps the directories as a rebuild would have them.** -/
theorem settled_consistent (h : Consistent sha (files.mapValues sha) dirs)
    (hsafe : RootSafe files c) :
    Consistent sha ((c.filesAfter files).mapValues sha)
      (settledDirs sha ((c.filesAfter files).mapValues sha) dirs c.paths) := by
  have hleaves : ∀ p ∉ c.paths,
      (files.mapValues sha).find? p = ((c.filesAfter files).mapValues sha).find? p := by
    intro p hp
    rw [OrdMap.find?_mapValues, OrdMap.find?_mapValues, filesAfter_other hp]
  have hoff := settled_offRoot h.offRoot hleaves
  refine ⟨hoff, ?_⟩
  by_cases hpaths : TopLevel c.paths
  · exact root_touched h hsafe hpaths hoff (settled_touched (empty_mem_touchedBy.mpr hpaths))
  · exact root_untouched h hsafe hpaths hoff
      (settled_untouched (fun hmem => hpaths (empty_mem_touchedBy.mp hmem)))

end Root

/-! ### Calls that change nothing -/

theorem foldl_removeLeaf_same {deleted : List String} (h : ∀ p ∈ deleted, st.1.find? p = none) :
    deleted.foldl removeLeaf st = st := by
  induction deleted with
  | nil => rfl
  | cons p deleted ih =>
    have hp := h p mem_cons_self
    have hsame : removeLeaf st p = st := by
      have herase : st.1.erase p = st.1 := by
        refine OrdMap.ext (fun k => ?_)
        rw [OrdMap.find?_erase]
        split_ifs with hk
        · rw [hk, hp]
        · rfl
      rw [removeLeaf, herase, hp]
      rfl
    rw [foldl_cons, hsame]
    exact ih (fun q hq => h q (mem_cons_of_mem p hq))

theorem foldl_changeLeaf_same {changed : List (String × List UInt8)}
    (h : ∀ e ∈ changed, st.1.find? e.1 = some (sha e.2)) :
    changed.foldl (changeLeaf sha) st = st := by
  induction changed with
  | nil => rfl
  | cons e changed ih =>
    have he := h e mem_cons_self
    have hsame : changeLeaf sha st e = st := by
      have hinsert : st.1.insert e.1 (sha e.2) = st.1 := by
        refine OrdMap.ext (fun k => ?_)
        rw [OrdMap.find?_insert]
        split_ifs with hk
        · rw [hk, he]
        · rfl
      rw [changeLeaf, hinsert, if_pos he]
    rw [foldl_cons, hsame]
    exact ih (fun q hq => h q (mem_cons_of_mem e hq))

theorem foldl_touchDir_same {touched : List String}
    (h : ∀ d ∈ touched, touchRule sha leaves d st.1 = st.1.find? d) :
    touched.foldl (touchDir sha leaves) st = st := by
  induction touched with
  | nil => rfl
  | cons d touched ih =>
    rw [foldl_cons, touchDir_same (h d mem_cons_self)]
    exact ih (fun e he => h e (mem_cons_of_mem d he))

theorem OffRoot.touchRule_same (h : OffRoot sha leaves dirs) (hd : d ≠ "") :
    touchRule sha leaves d dirs = dirs.find? d := by
  have hentries : (hasFiles leaves d || hasSubdirs dirs d) = true ↔ IsDir leaves d := by
    refine hasEntries_iff hd (fun k hk => h.isSome_iff ?_)
    rintro rfl
    exact hd (hk ▸ dirOf_empty)
  rw [touchRule]
  split_ifs with hhas
  · rw [h.dir d (hentries.mp hhas)]
  · rw [h.absent d hd (fun hdir => hhas (hentries.mpr hdir))]

section Quiet

variable {files : Files} {c : Change} (hsame : c.filesAfter files = files)
  (h : Consistent sha (files.mapValues sha) dirs) (hsafe : Safe files c)

include hsame in
theorem find?_of_changed {p : String} {v : List UInt8} (hp : c.changed.find? p = some v) :
    files.find? p = some v := by
  rw [← hsame, find?_filesAfter, hp]
  rfl

include hsame hsafe in
theorem find?_of_deleted {p : String} (hp : p ∈ c.deleted) : files.find? p = none := by
  have hnot : p ∉ c.changed.keys := hsafe.2 (by rw [hsame]) p hp
  have hchanged : c.changed.find? p = none := by
    cases hc : c.changed.find? p with
    | none => rfl
    | some v => exact absurd (OrdMap.mem_keys.mpr ⟨v, hc⟩) hnot
  rw [← hsame, find?_filesAfter, hchanged, if_pos hp]
  rfl

include hsame h hsafe in
theorem root_same (hpaths : TopLevel c.paths) :
    touchRule sha (files.mapValues sha) "" dirs = dirs.find? "" := by
  have hroot := hsafe.1
  rw [RootSafe, hsame] at hroot
  split_ifs at hroot with htop
  · rcases hroot with hempty | ⟨-, hnot⟩
    · obtain ⟨p, hp, -⟩ := htop
      rw [hempty] at hp
      cases hp
    · exact absurd hpaths hnot
  · have hempty := (hroot hpaths).resolve_left htop
    have hfiles : hasFiles (files.mapValues sha) "" = false :=
      Bool.eq_false_iff.mpr (fun hf => htop (hasFiles_mapValues.mp hf))
    have hsub : hasSubdirs dirs "" = false := by
      rw [Bool.eq_false_iff]
      intro hsub
      obtain ⟨k, hk, hk0, -⟩ := hasSubdirs_iff.mp hsub
      exact not_isDir_of_keys hempty k ((h.offRoot.isSome_iff hk0).mp (OrdMap.mem_keys.mp hk))
    rw [touchRule, h.root, hfiles, hsub]
    rfl

include hsame h hsafe in
theorem applyChanges_quiet {index : MerkleIndex} (hleaves : index.leaves = files.mapValues sha)
    (hdirs : index.dirs = dirs) : (index.applyChanges sha c).2 = [] := by
  have hremoved : c.deleted.foldl removeLeaf (index.leaves, []) = (index.leaves, []) := by
    refine foldl_removeLeaf_same (fun p hp => ?_)
    rw [hleaves, OrdMap.find?_mapValues, find?_of_deleted hsame hsafe hp]
    rfl
  have hchanged : c.changed.entries.foldl (changeLeaf sha) (index.leaves, [])
      = (index.leaves, []) := by
    refine foldl_changeLeaf_same (fun e he => ?_)
    rw [hleaves, OrdMap.find?_mapValues, find?_of_changed hsame (OrdMap.mem_entries.mp he)]
    rfl
  have htouched : (deepestFirst (c.paths.flatMap dirsAbove)).foldl
      (touchDir sha index.leaves) (index.dirs, []) = (index.dirs, []) := by
    refine foldl_touchDir_same (fun d hd => ?_)
    rw [hleaves, hdirs]
    by_cases hd0 : d = ""
    · subst hd0
      exact root_same hsame h hsafe (empty_mem_touchedBy.mp hd)
    · exact h.offRoot.touchRule_same hd0
  rw [MerkleIndex.applyChanges, hremoved, hchanged]
  rw [htouched]

end Quiet

/-! ### Runs -/

variable (sha) in
/-- The index a rebuild from the files would give, up to the revision. -/
structure Rebuilt (files : Files) (index : MerkleIndex) : Prop where
  leaves : index.leaves = files.mapValues sha
  dirs : Consistent sha (files.mapValues sha) index.dirs

theorem build_rebuilt (files : Files) (revision : Nat) :
    Rebuilt sha files (build sha files revision) :=
  ⟨rfl, build_consistent files revision⟩

theorem Rebuilt.applyChanges (h : Rebuilt sha files index) (hsafe : Safe files c) :
    Rebuilt sha (c.filesAfter files) (index.applyChanges sha c).1 := by
  refine ⟨leaves_after h.leaves c, ?_⟩
  rw [dirs_after h.leaves c]
  exact settled_consistent h.dirs hsafe.1

theorem Rebuilt.run (calls : List Change) : ∀ {files : Files} {index : MerkleIndex},
    Rebuilt sha files index → Admits editFiles Safe files calls →
    Rebuilt sha (run editFiles files calls) (run (MerkleIndex.applyChanges sha) index calls) := by
  induction calls with
  | nil =>
    intro files index h _
    exact h
  | cons c calls ih =>
    intro files index h hadmits
    exact ih (h.applyChanges hadmits.1) hadmits.2

/-- **Incremental updates are rebuilds.**  After a build and any safe calls, the index has
the leaves, the directories and the root digest of a build from the resulting files; and a
safe call that then leaves every file as it was reports nothing. -/
theorem applyChanges_rebuilds (sha : List UInt8 → String) (files : Files) (revision : Nat)
    (calls : List Change) (h : Admits editFiles Safe files calls) :
    let index := run (MerkleIndex.applyChanges sha) (build sha files revision) calls
    let after := run editFiles files calls
    index.leaves = (build sha after index.revision).leaves ∧
    index.dirs = (build sha after index.revision).dirs ∧
    index.rootDigest sha = (build sha after index.revision).rootDigest sha ∧
    ∀ c, Safe after c → c.filesAfter after = after → (index.applyChanges sha c).2 = [] := by
  intro index after
  have hrebuilt : Rebuilt sha after index := (build_rebuilt files revision).run calls h
  have hleaves : index.leaves = (build sha after index.revision).leaves := hrebuilt.leaves
  have hdirs : index.dirs = (build sha after index.revision).dirs :=
    hrebuilt.dirs.unique (build_consistent after index.revision)
  refine ⟨hleaves, hdirs, ?_, fun c hsafe hsame => ?_⟩
  · rw [MerkleIndex.rootDigest, MerkleIndex.rootDigest, hleaves, hdirs]
  · exact applyChanges_quiet hsame hrebuilt.dirs hsafe hrebuilt.leaves rfl

/-- The bytes as characters, a digest without collisions. -/
def byteText (bytes : List UInt8) : String :=
  String.ofList (bytes.map (fun b => Char.ofNat b.toNat))

/-- A file under `src`, then an edit of it with a new file beside, then its deletion. -/
def srcEdits : List Change :=
  [⟨.ofList [("src/a", [1, 2]), ("src/b/c", [])], [], 2⟩, ⟨.empty, ["src/a"], 3⟩]

def srcFiles : Files := .ofList [("src/a", [1])]

theorem applyChanges_rebuilds_srcEdits :
    (run (MerkleIndex.applyChanges byteText) (build byteText srcFiles 1) srcEdits).rootDigest
        byteText
      = (build byteText (.ofList [("src/b/c", [])]) 3).rootDigest byteText ∧
    ((run (MerkleIndex.applyChanges byteText) (build byteText srcFiles 1) srcEdits).applyChanges
      byteText ⟨.ofList [("src/b/c", [])], [], 4⟩).2 = [] := by
  have h := applyChanges_rebuilds byteText srcFiles 1 srcEdits (by decide +kernel)
  refine ⟨h.2.2.1, h.2.2.2 _ (by decide +kernel) ?_⟩
  exact eq_of_entries (by decide +kernel)

/-- One top-level file.  Giving it the bytes it has changes no file, and yet the call
reports the root pseudo-directory, which the build materialised: its digest then is over
itself as well, and neither it nor the root digest is that of a rebuild. -/
theorem topLevel_drifts :
    let files : Files := .ofList [("a", [])]
    let c : Change := ⟨.ofList [("a", [])], [], 2⟩
    let step := (build byteText files 1).applyChanges byteText c
    (c.filesAfter files).entries = files.entries ∧
    step.2 = [.dirNode ""] ∧
    step.1.dirs.entries ≠ (build byteText files 2).dirs.entries ∧
    step.1.rootDigest byteText ≠ (build byteText files 2).rootDigest byteText := by
  decide +kernel

end Merkle

end Modbit
