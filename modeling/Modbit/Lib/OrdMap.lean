import Mathlib.Data.List.Basic
import Mathlib.Data.List.Sort
import Mathlib.Order.Defs.LinearOrder

/-!
# Ordered maps

A map is the list of its entries in the order of their keys, each key once, so that two
maps with the same lookups are the same map (`OrdMap.ext`).  `find?` after `insert` and
`erase` is what one expects, and `filter_entries_congr` says that the entries under some
keys are decided by the lookups of those keys.

`settle` sets one key to what a rule says; `settled_of_descending` is what a pass of it
over keys in descending order leaves, when the rule for a key looks at that key and at
greater ones only.
-/

namespace Modbit.Lib

open List

variable {K V W : Type*} [LinearOrder K]

structure OrdMap (K V : Type*) [LinearOrder K] where
  entries : List (K × V)
  sorted : entries.Pairwise (fun a b => a.1 < b.1)

namespace OrdMap

def empty : OrdMap K V := ⟨[], .nil⟩

def find? (m : OrdMap K V) (k : K) : Option V := m.entries.lookup k

def keys (m : OrdMap K V) : List K := m.entries.map Prod.fst

def insertEntry (k : K) (v : V) : List (K × V) → List (K × V)
  | [] => [(k, v)]
  | e :: l => if k < e.1 then (k, v) :: e :: l
    else if k = e.1 then (k, v) :: l
    else e :: insertEntry k v l

variable {l : List (K × V)}

theorem mem_insertEntry {k : K} {v : V} {x : K × V}
    (h : x ∈ insertEntry k v l) : x = (k, v) ∨ x ∈ l := by
  induction l with
  | nil => exact Or.inl (mem_singleton.mp h)
  | cons e l ih =>
    rw [insertEntry] at h
    split_ifs at h
    · exact mem_cons.mp h
    · rcases mem_cons.mp h with h | h
      · exact Or.inl h
      · exact Or.inr (mem_cons_of_mem e h)
    · rcases mem_cons.mp h with h | h
      · exact Or.inr (h ▸ mem_cons_self)
      · rcases ih h with h | h
        · exact Or.inl h
        · exact Or.inr (mem_cons_of_mem e h)

theorem sorted_insertEntry (k : K) (v : V) (h : l.Pairwise (fun a b => a.1 < b.1)) :
    (insertEntry k v l).Pairwise (fun a b => a.1 < b.1) := by
  induction l with
  | nil => exact pairwise_singleton _ _
  | cons e l ih =>
    obtain ⟨hhead, htail⟩ := pairwise_cons.mp h
    rw [insertEntry]
    split_ifs with hlt heq
    · refine pairwise_cons.mpr ⟨fun x hx => ?_, h⟩
      rcases mem_cons.mp hx with rfl | hx
      · exact hlt
      · exact lt_trans hlt (hhead x hx)
    · refine pairwise_cons.mpr ⟨fun x hx => ?_, htail⟩
      rw [heq]
      exact hhead x hx
    · refine pairwise_cons.mpr ⟨fun x hx => ?_, ih htail⟩
      rcases mem_insertEntry hx with rfl | hx
      · exact lt_of_le_of_ne (not_lt.mp hlt) (Ne.symm heq)
      · exact hhead x hx

def insert (m : OrdMap K V) (k : K) (v : V) : OrdMap K V :=
  ⟨insertEntry k v m.entries, sorted_insertEntry k v m.sorted⟩

def erase (m : OrdMap K V) (k : K) : OrdMap K V :=
  ⟨m.entries.filter (fun e => e.1 ≠ k), m.sorted.filter _⟩

def mapValues (f : V → W) (m : OrdMap K V) : OrdMap K W :=
  ⟨m.entries.map (fun e => (e.1, f e.2)), List.pairwise_map.mpr m.sorted⟩

def filterMap (f : K → V → Option W) (m : OrdMap K V) : OrdMap K W where
  entries := m.entries.filterMap (fun e => (f e.1 e.2).map (fun w => (e.1, w)))
  sorted := by
    refine List.pairwise_filterMap.mpr (m.sorted.imp ?_)
    intro a b hlt x hx y hy
    obtain ⟨w, -, rfl⟩ := Option.map_eq_some_iff.mp hx
    obtain ⟨w', -, rfl⟩ := Option.map_eq_some_iff.mp hy
    exact hlt

def insertAll (m : OrdMap K V) (l : List (K × V)) : OrdMap K V :=
  l.foldl (fun m e => m.insert e.1 e.2) m

def eraseAll (m : OrdMap K V) (l : List K) : OrdMap K V := l.foldl erase m

def ofList (l : List (K × V)) : OrdMap K V := empty.insertAll l

/-! ### Lookups -/

variable {m m' : OrdMap K V} {k k' : K} {v : V}

theorem lookup_cons (k : K) (e : K × V) (l : List (K × V)) :
    (e :: l).lookup k = if k = e.1 then some e.2 else l.lookup k := by
  rw [List.lookup_cons]
  by_cases h : k = e.1
  · rw [if_pos h, beq_iff_eq.mpr h]
  · rw [if_neg h, beq_eq_false_iff_ne.mpr h]

theorem lookup_eq_none (h : ∀ e ∈ l, e.1 ≠ k) : l.lookup k = none := by
  induction l with
  | nil => rfl
  | cons e l ih =>
    rw [lookup_cons, if_neg (fun he => h e mem_cons_self he.symm)]
    exact ih (fun x hx => h x (mem_cons_of_mem e hx))

theorem mem_of_lookup (h : l.lookup k = some v) : (k, v) ∈ l := by
  induction l with
  | nil => cases h
  | cons e l ih =>
    rw [lookup_cons] at h
    split_ifs at h with hk
    · rw [hk, ← Option.some.inj h, Prod.eta]
      exact mem_cons_self
    · exact mem_cons_of_mem e (ih h)

theorem mem_iff_lookup (h : l.Pairwise (fun a b => a.1 < b.1)) :
    (k, v) ∈ l ↔ l.lookup k = some v := by
  induction l with
  | nil => simp
  | cons e l ih =>
    obtain ⟨hhead, htail⟩ := pairwise_cons.mp h
    rw [lookup_cons, mem_cons]
    by_cases hk : k = e.1
    · rw [if_pos hk, Option.some.injEq]
      constructor
      · rintro (he | he)
        · rw [← he]
        · exact absurd (hhead _ he) (by rw [hk]; exact lt_irrefl _)
      · intro he
        refine Or.inl ?_
        rw [hk, ← he]
    · rw [if_neg hk, ← ih htail]
      constructor
      · rintro (he | he)
        · exact absurd (congrArg Prod.fst he) hk
        · exact he
      · exact Or.inr

theorem mem_entries : (k, v) ∈ m.entries ↔ m.find? k = some v := mem_iff_lookup m.sorted

theorem mem_keys : k ∈ m.keys ↔ ∃ v, m.find? k = some v := by
  rw [keys, mem_map]
  constructor
  · rintro ⟨e, he, rfl⟩
    exact ⟨e.2, mem_entries.mp he⟩
  · rintro ⟨v, hv⟩
    exact ⟨(k, v), mem_entries.mpr hv, rfl⟩

theorem eq_of_mem_iff {l l' : List (K × V)} (h : l.Pairwise (fun a b => a.1 < b.1))
    (h' : l'.Pairwise (fun a b => a.1 < b.1)) (hmem : ∀ e, e ∈ l ↔ e ∈ l') : l = l' := by
  have hnodup : ∀ {l : List (K × V)}, l.Pairwise (fun a b => a.1 < b.1) → l.Nodup :=
    fun h => h.imp (fun hlt he => absurd (he ▸ hlt) (lt_irrefl _))
  have hperm : l.Perm l' := (perm_ext_iff_of_nodup (hnodup h) (hnodup h')).mpr hmem
  refine hperm.eq_of_pairwise (fun a b _ _ hab hba => ?_) h h'
  exact absurd (lt_trans hab hba) (lt_irrefl _)

/-- **Maps with the same lookups are the same.** -/
theorem ext (h : ∀ k, m.find? k = m'.find? k) : m = m' := by
  have hent : m.entries = m'.entries := by
    refine eq_of_mem_iff m.sorted m'.sorted (fun e => ?_)
    rw [← Prod.eta e, mem_entries, mem_entries, h]
  cases m
  cases m'
  simpa using hent

theorem filter_entries_congr {p : K → Bool} (h : ∀ k, p k = true → m.find? k = m'.find? k) :
    m.entries.filter (fun e => p e.1) = m'.entries.filter (fun e => p e.1) := by
  refine eq_of_mem_iff (m.sorted.filter _) (m'.sorted.filter _) (fun e => ?_)
  rw [mem_filter, mem_filter]
  refine and_congr_left (fun hp => ?_)
  rw [← Prod.eta e, mem_entries, mem_entries, h e.1 hp]

@[simp] theorem find?_empty (k : K) : (empty : OrdMap K V).find? k = none := rfl

theorem find?_insert (m : OrdMap K V) (k : K) (v : V) (k' : K) :
    (m.insert k v).find? k' = if k' = k then some v else m.find? k' := by
  show (insertEntry k v m.entries).lookup k' = _
  rw [find?]
  generalize m.entries = l
  induction l with
  | nil => rw [insertEntry, lookup_cons]
  | cons e l ih =>
    rw [insertEntry]
    split_ifs with hlt heq hk' hk'
    all_goals simp_all [lookup_cons]

theorem find?_erase (m : OrdMap K V) (k k' : K) :
    (m.erase k).find? k' = if k' = k then none else m.find? k' := by
  show (m.entries.filter (fun e => e.1 ≠ k)).lookup k' = _
  rw [find?]
  generalize m.entries = l
  induction l with
  | nil => simp
  | cons e l ih =>
    by_cases he : e.1 = k
    · rw [filter_cons_of_neg (by simpa using he), ih, lookup_cons]
      split_ifs with hk hk2
      · rfl
      · exact absurd (hk2.trans he) hk
      · rfl
    · rw [filter_cons_of_pos (by simpa using he), lookup_cons, ih, lookup_cons]
      split_ifs with hk hk2
      · exact absurd (hk.symm.trans hk2) he
      · rfl
      · rfl
      · rfl

theorem find?_mapValues (f : V → W) (m : OrdMap K V) (k : K) :
    (m.mapValues f).find? k = (m.find? k).map f := by
  show (m.entries.map (fun e => (e.1, f e.2))).lookup k = _
  rw [find?]
  generalize m.entries = l
  induction l with
  | nil => rfl
  | cons e l ih =>
    rw [map_cons, lookup_cons, lookup_cons, ih]
    split_ifs
    · rfl
    · rfl

theorem find?_filterMap (f : K → V → Option W) (m : OrdMap K V) (k : K) :
    (m.filterMap f).find? k = (m.find? k).bind (f k) := by
  refine Option.ext (fun w => ?_)
  rw [← mem_entries, Option.bind_eq_some_iff]
  constructor
  · intro h
    obtain ⟨e, he, hw⟩ := mem_filterMap.mp h
    obtain ⟨w', hf, heq⟩ := Option.map_eq_some_iff.mp hw
    obtain ⟨rfl, rfl⟩ := Prod.mk.inj heq
    exact ⟨e.2, mem_entries.mp he, hf⟩
  · rintro ⟨v, hv, hf⟩
    refine mem_filterMap.mpr ⟨(k, v), mem_entries.mpr hv, ?_⟩
    rw [hf]
    rfl

theorem keys_mapValues (f : V → W) (m : OrdMap K V) : (m.mapValues f).keys = m.keys := by
  show (m.entries.map _).map Prod.fst = m.entries.map Prod.fst
  rw [map_map]
  rfl

theorem keys_congr {n : OrdMap K W} (h : ∀ k, (m.find? k).isSome = (n.find? k).isSome) :
    m.keys = n.keys := by
  have hmaps : m.mapValues (fun _ => ()) = n.mapValues (fun _ => ()) := by
    refine ext (fun k => ?_)
    have hk := h k
    rw [find?_mapValues, find?_mapValues]
    cases hm : m.find? k with
    | none =>
      rw [hm] at hk
      rw [Option.isNone_iff_eq_none.mp (Option.isSome_eq_false_iff.mp hk.symm)]
      rfl
    | some v =>
      rw [hm] at hk
      obtain ⟨w, hw⟩ := Option.isSome_iff_exists.mp hk.symm
      rw [hw]
      rfl
  rw [← keys_mapValues (fun _ => ()) m, hmaps, keys_mapValues]

theorem find?_insertAll (l : List (K × V)) (k : K) : ∀ m : OrdMap K V,
    (m.insertAll l).find? k = ((l.reverse.lookup k).or (m.find? k)) := by
  induction l with
  | nil => intro m; rfl
  | cons e l ih =>
    intro m
    show ((m.insert e.1 e.2).insertAll l).find? k = _
    rw [ih, find?_insert, reverse_cons, lookup_append, lookup_cons, Option.or_assoc]
    split_ifs
    · rfl
    · rfl

theorem find?_ofList (l : List (K × V)) (k : K) : (ofList l).find? k = l.reverse.lookup k := by
  rw [ofList, find?_insertAll, find?_empty, Option.or_none]

theorem find?_eraseAll (l : List K) (k : K) : ∀ m : OrdMap K V,
    (m.eraseAll l).find? k = if k ∈ l then none else m.find? k := by
  induction l with
  | nil => intro m; simp [eraseAll]
  | cons a l ih =>
    intro m
    show ((m.erase a).eraseAll l).find? k = _
    rw [ih, find?_erase]
    by_cases hl : k ∈ l
    · rw [if_pos hl, if_pos (mem_cons_of_mem a hl)]
    · by_cases ha : k = a
      · rw [if_neg hl, if_pos ha, if_pos (ha ▸ mem_cons_self)]
      · rw [if_neg hl, if_neg ha, if_neg (by simp [ha, hl])]

theorem lookup_filter (l : List (K × V)) (p : K → Bool) (k : K) :
    (l.filter (fun e => p e.1)).lookup k = if p k then l.lookup k else none := by
  induction l with
  | nil => simp
  | cons e l ih =>
    by_cases he : p e.1 = true
    · rw [filter_cons_of_pos (by exact he), lookup_cons, lookup_cons, ih]
      split_ifs with hk hp
      · rfl
      · rw [hk] at hp
        exact absurd he hp
      · rfl
      · rfl
    · rw [filter_cons_of_neg (by exact he), ih, lookup_cons]
      split_ifs with hp hk
      · rw [hk] at hp
        exact absurd hp he
      · rfl
      · rfl

theorem lookup_of_unique (hmem : (k, v) ∈ l)
    (hkeys : ∀ w, (k, w) ∈ l → w = v) : l.lookup k = some v := by
  induction l with
  | nil => cases hmem
  | cons e l ih =>
    rw [lookup_cons]
    by_cases hk : k = e.1
    · rw [if_pos hk, hkeys e.2 (by rw [hk, Prod.eta]; exact mem_cons_self)]
    · rw [if_neg hk]
      rcases mem_cons.mp hmem with he | he
      · exact absurd (congrArg Prod.fst he) hk
      · exact ih he (fun w hw => hkeys w (mem_cons_of_mem e hw))

theorem find?_insertAll_entries (m n : OrdMap K V) (k : K) :
    (m.insertAll n.entries).find? k = (n.find? k).or (m.find? k) := by
  have hrev : n.entries.reverse.lookup k = n.find? k := by
    cases hn : n.find? k with
    | none =>
      refine lookup_eq_none (fun e he hk => ?_)
      have hmem := mem_entries.mp (show (k, e.2) ∈ n.entries by
        rw [← hk, Prod.eta]; exact mem_reverse.mp he)
      rw [hn] at hmem
      cases hmem
    | some v =>
      refine lookup_of_unique (mem_reverse.mpr (mem_entries.mpr hn)) (fun w hw => ?_)
      have hfind := mem_entries.mp (mem_reverse.mp hw)
      rw [hn] at hfind
      exact (Option.some.inj hfind).symm
  rw [find?_insertAll, hrev]

/-! ### Settling keys one by one -/

def put (m : OrdMap K V) (k : K) : Option V → OrdMap K V
  | some v => m.insert k v
  | none => m.erase k

theorem find?_put (m : OrdMap K V) (k : K) (v : Option V) (k' : K) :
    (m.put k v).find? k' = if k' = k then v else m.find? k' := by
  cases v with
  | none => exact find?_erase m k k'
  | some v => exact find?_insert m k v k'

/-- One pass of `put` over the entries of a map. -/
theorem find?_putAll (f : K → V → Option W) (n : OrdMap K V) (m : OrdMap K W) (k : K) :
    (n.entries.foldl (fun m e => m.put e.1 (f e.1 e.2)) m).find? k
      = (n.find? k).elim (m.find? k) (f k) := by
  have hfind : n.find? k = n.entries.lookup k := rfl
  rw [hfind]
  have hsorted := n.sorted
  generalize n.entries = l at hsorted
  induction l generalizing m with
  | nil => rfl
  | cons e l ih =>
    obtain ⟨hhead, htail⟩ := pairwise_cons.mp hsorted
    rw [foldl_cons, ih _ htail, lookup_cons, find?_put]
    by_cases hk : k = e.1
    · have hnone : l.lookup k = none :=
        lookup_eq_none (fun x hx he => lt_irrefl k (lt_of_eq_of_lt hk (lt_of_lt_of_eq (hhead x hx) he)))
      rw [hnone, if_pos hk, if_pos hk, hk]
      rfl
    · rw [if_neg hk, if_neg hk]

theorem put_find? (m : OrdMap K V) (k : K) : m.put k (m.find? k) = m := by
  refine ext (fun k' => ?_)
  rw [find?_put]
  split_ifs with h
  · rw [h]
  · rfl

def settle (rule : K → OrdMap K V → Option V) (m : OrdMap K V) (k : K) : OrdMap K V :=
  m.put k (rule k m)

/-- A rule that looks at its own key and at greater ones only. -/
def LooksUp (rule : K → OrdMap K V → Option V) : Prop :=
  ∀ k m m', (∀ k', k ≤ k' → m.find? k' = m'.find? k') → rule k m = rule k m'

/-- **A descending pass settles its keys.**  Each has the value its rule gives in the
final map, with its own entry as it was before; the other keys keep theirs. -/
theorem settled_of_descending {rule : K → OrdMap K V → Option V} (hrule : LooksUp rule)
    (ks : List K) : ∀ m : OrdMap K V, ks.Pairwise (fun a b => b < a) →
    (∀ k ∉ ks, (ks.foldl (settle rule) m).find? k = m.find? k) ∧
      ∀ k ∈ ks, (ks.foldl (settle rule) m).find? k
        = rule k ((ks.foldl (settle rule) m).put k (m.find? k)) := by
  induction ks with
  | nil => exact fun m _ => ⟨fun _ _ => rfl, fun k hk => absurd hk not_mem_nil⟩
  | cons a ks ih =>
    intro m hdesc
    obtain ⟨hhead, htail⟩ := pairwise_cons.mp hdesc
    obtain ⟨hout, hin⟩ := ih (settle rule m a) htail
    have hother : ∀ k, k ≠ a → (settle rule m a).find? k = m.find? k :=
      fun k hk => by rw [settle, find?_put, if_neg hk]
    rw [foldl_cons]
    refine ⟨fun k hk => ?_, fun k hk => ?_⟩
    · rw [hout k (fun h => hk (mem_cons_of_mem a h)), hother k (fun h => hk (h ▸ mem_cons_self))]
    · by_cases hka : k = a
      · subst hka
        have hnot : k ∉ ks := fun h => lt_irrefl k (hhead k h)
        have hself : (settle rule m k).find? k = rule k m := by
          rw [settle, find?_put, if_pos rfl]
        rw [hout k hnot, hself]
        refine hrule k _ _ (fun k' hle => ?_)
        rw [find?_put]
        split_ifs with h
        · rw [h]
        · have hnot' : k' ∉ ks :=
            fun hmem => absurd (lt_of_le_of_lt hle (hhead k' hmem)) (lt_irrefl k)
          rw [hout k' hnot', hother k' h]
      · rcases mem_cons.mp hk with h | h
        · exact absurd h hka
        · rw [hin k h, hother k hka]

end OrdMap

end Modbit.Lib
