import Mathlib.Data.List.Sort

/-!
# Sorting

`sorted` is the stable sort by a rank.  The first element of it that has a property is of the least rank
among those that have it (`find_sorted`), and every such element is the first one of some arrangement,
the one that begins with it (`find_sorted_cons`).

`StableSort` is what a stable sort by any comparison promises, and `mergeSortBy` keeps it.
`head_filter_iff` says by the list alone which element comes first: the one that is not `Preceded`.

`meet` narrows lists down, one after the other; what is left are the elements of the first one that are
in all of them (`meet_eq`).
-/

namespace Modbit.Lib

open List

variable {α β : Type*}

def sorted (rank : α → Nat) (l : List α) : List α := l.insertionSort (fun a b => rank a ≤ rank b)

variable {rank : α → Nat} {p : α → Bool} {l : List α} {a b : α}

theorem mem_sorted : a ∈ sorted rank l ↔ a ∈ l := mem_insertionSort _

theorem sorted_pairwise (rank : α → Nat) (l : List α) :
    (sorted rank l).Pairwise (fun a b => rank a ≤ rank b) := by
  have : Std.Total (fun a b : α => rank a ≤ rank b) := ⟨fun a b => Nat.le_total (rank a) (rank b)⟩
  have : IsTrans α (fun a b : α => rank a ≤ rank b) := ⟨fun _ _ _ => Nat.le_trans⟩
  exact pairwise_insertionSort _ l

theorem find_pairwise (h : l.Pairwise (fun a b => rank a ≤ rank b)) (hfind : l.find? p = some a) :
    ∀ b ∈ l, p b = true → rank a ≤ rank b := by
  induction l with
  | nil => cases hfind
  | cons c l ih =>
    obtain ⟨hhead, htail⟩ := pairwise_cons.mp h
    intro b hb hpb
    rw [find?_cons] at hfind
    cases hc : p c with
    | true =>
      rw [hc] at hfind
      obtain rfl := Option.some.inj hfind
      rcases mem_cons.mp hb with rfl | hb
      · exact Nat.le_refl _
      · exact hhead b hb
    | false =>
      rw [hc] at hfind
      rcases mem_cons.mp hb with rfl | hb
      · cases hc.symm.trans hpb
      · exact ih htail hfind b hb hpb

/-- The elements of the least rank among those that have the property. -/
def Foremost (rank : α → Nat) (p : α → Bool) (l : List α) (a : α) : Prop :=
  a ∈ l ∧ p a = true ∧ ∀ b ∈ l, p b = true → rank a ≤ rank b

/-- **The first one that has the property.** -/
theorem find_sorted (h : (sorted rank l).find? p = some a) : Foremost rank p l a :=
  ⟨mem_sorted.mp (mem_of_find?_eq_some h), find?_some h,
    fun b hb => find_pairwise (sorted_pairwise rank l) h b (mem_sorted.mpr hb)⟩

theorem find_sorted_eq_none : (sorted rank l).find? p = none ↔ ∀ a ∈ l, p a = false := by
  rw [find?_eq_none]
  constructor
  · exact fun h a ha => Bool.eq_false_of_not_eq_true (h a (mem_sorted.mpr ha))
  · exact fun h a ha hpa => by cases (h a (mem_sorted.mp ha)).symm.trans hpa

theorem find_orderedInsert (hpa : p a = true) (ha : ∀ b ∈ l, p b = true → rank a ≤ rank b) :
    (l.orderedInsert (fun a b => rank a ≤ rank b) a).find? p = some a := by
  induction l with
  | nil => exact find?_cons_of_pos hpa
  | cons b l ih =>
    rw [orderedInsert_cons]
    split_ifs with hle
    · exact find?_cons_of_pos hpa
    · have hpb : ¬ p b = true := fun hpb => hle (ha b mem_cons_self hpb)
      rw [find?_cons_of_neg hpb]
      exact ih (fun c hc => ha c (mem_cons_of_mem b hc))

theorem find_sorted_cons (hpa : p a = true) (ha : ∀ b ∈ l, p b = true → rank a ≤ rank b) :
    (sorted rank (a :: l)).find? p = some a :=
  find_orderedInsert hpa (fun b hb => ha b (mem_sorted.mp hb))

/-- **Every top element is the first one of some arrangement.** -/
theorem Foremost.exists_perm [DecidableEq α] (h : Foremost rank p l a) :
    ∃ m, m.Perm l ∧ (sorted rank m).find? p = some a :=
  ⟨a :: l.erase a, (perm_cons_erase h.1).symm,
    find_sorted_cons h.2.1 (fun b hb => h.2.2 b (mem_of_mem_erase hb))⟩

theorem Foremost.congr {m : List α} (h : Foremost rank p l a) (hm : m.Perm l) : Foremost rank p m a :=
  ⟨hm.mem_iff.mpr h.1, h.2.1, fun b hb => h.2.2 b (hm.mem_iff.mp hb)⟩

/-! ### Sorting by a comparison -/

section Comparison

/-- A comparison that orders the elements of a list. -/
structure TotalOn (cmp : α → α → Ordering) (l : List α) : Prop where
  swap : ∀ a ∈ l, ∀ b ∈ l, cmp b a = (cmp a b).swap
  trans : ∀ a ∈ l, ∀ b ∈ l, ∀ c ∈ l, (cmp a b).isLE → (cmp b c).isLE → (cmp a c).isLE

/-- What a stable sort promises: it rearranges, and by a comparison that orders the elements it
sorts them, and leaves those that are equal in their order. -/
structure StableSort (sortBy : (α → α → Ordering) → List α → List α) : Prop where
  perm : ∀ cmp l, (sortBy cmp l).Perm l
  sorted : ∀ cmp l, TotalOn cmp l → (sortBy cmp l).Pairwise (fun a b => (cmp a b).isLE)
  stable : ∀ cmp l, TotalOn cmp l → ∀ a ∈ l,
    (sortBy cmp l).filter (fun b => cmp a b = .eq) = l.filter (fun b => cmp a b = .eq)

/-- At its place an element that counts is preceded: by an earlier one that is not behind it, or by
a later one that is before it. -/
def Preceded (cmp : α → α → Ordering) (counts : α → Prop) (l₁ : List α) (a : α) (l₂ : List α) : Prop :=
  (∃ b ∈ l₁, counts b ∧ (cmp b a).isLE) ∨ ∃ b ∈ l₂, counts b ∧ cmp b a = .lt

variable {cmp : α → α → Ordering} {counts : α → Prop} {l₁ l₂ m₁ m₂ : List α}
  {sortBy : (α → α → Ordering) → List α → List α}

theorem lt_or_swap (o : Ordering) : o = .lt ∨ o.swap.isLE := by decide +revert

theorem eq_of_isLE_swap (o : Ordering) : o.isLE → o.swap.isLE → o = .eq := by decide +revert

/-- **At most one element is preceded by none.** -/
theorem eq_of_not_preceded (hswap : cmp b a = (cmp a b).swap) (ha : counts a) (hb : counts b)
    (hsplit : l₁ ++ a :: l₂ = m₁ ++ b :: m₂) (hfirst : ¬ Preceded cmp counts l₁ a l₂)
    (hfirst' : ¬ Preceded cmp counts m₁ b m₂) : a = b := by
  have hlt : cmp a b = .lt ∨ (cmp b a).isLE := hswap ▸ lt_or_swap _
  have hlt' : cmp b a = .lt ∨ (cmp a b).isLE := by
    have h := lt_or_swap (cmp b a)
    rwa [hswap, Ordering.swap_swap, ← hswap] at h
  rcases append_eq_append_iff.mp hsplit with ⟨r, rfl, hr⟩ | ⟨r, rfl, hr⟩
  · cases r with
    | nil => exact (List.cons.inj hr).1
    | cons c r =>
      obtain ⟨rfl, rfl⟩ := List.cons.inj hr
      rcases hlt' with h | h
      · exact absurd (.inr ⟨b, by simp, hb, h⟩) hfirst
      · exact absurd (.inl ⟨a, by simp, ha, h⟩) hfirst'
  · cases r with
    | nil => exact (List.cons.inj hr).1.symm
    | cons c r =>
      obtain ⟨rfl, rfl⟩ := List.cons.inj hr
      rcases hlt with h | h
      · exact absurd (.inr ⟨a, by simp, ha, h⟩) hfirst'
      · exact absurd (.inl ⟨b, by simp, hb, h⟩) hfirst

theorem not_preceded_of_head (hsort : StableSort sortBy) (htotal : TotalOn cmp l)
    (h : (sortBy cmp l).head? = some a) :
    ∃ l₁ l₂, l = l₁ ++ a :: l₂ ∧ ¬ Preceded cmp (fun _ => True) l₁ a l₂ := by
  obtain ⟨tail, hs⟩ := head?_eq_some_iff.mp h
  have hmem : ∀ {b}, b ∈ l ↔ b ∈ a :: tail := fun {b} => hs ▸ (hsort.perm cmp l).mem_iff.symm
  have ha : a ∈ l := hmem.mpr mem_cons_self
  have hself : cmp a a = .eq := by
    have hswap := htotal.swap a ha a ha
    revert hswap
    generalize cmp a a = o
    decide +revert
  -- Nothing comes before the head, and its equals come behind it.
  have hle : ∀ b ∈ l, (cmp a b).isLE := fun b hb => by
    rcases mem_cons.mp (hmem.mp hb) with rfl | hb
    · rw [hself]
      rfl
    · exact (pairwise_cons.mp (hs ▸ hsort.sorted cmp l htotal)).1 b hb
  obtain ⟨l₁, l₂, rfl, hnot⟩ := eq_append_cons_of_mem ha
  refine ⟨l₁, l₂, rfl, ?_⟩
  rintro (⟨b, hb, -, hbefore⟩ | ⟨b, hb, -, hbefore⟩)
  · have hbl : b ∈ l₁ ++ a :: l₂ := mem_append_left _ hb
    have heq : cmp a b = .eq := by
      rw [htotal.swap a ha b hbl] at hbefore
      exact eq_of_isLE_swap _ (hle b hbl) hbefore
    have hstable := hsort.stable cmp _ htotal a ha
    rw [hs, filter_cons, if_pos (decide_eq_true hself), filter_append] at hstable
    obtain ⟨c, rest, hc⟩ := exists_cons_of_ne_nil (ne_nil_of_mem
      (mem_filter (p := fun b => decide (cmp a b = .eq)).mpr ⟨hb, decide_eq_true heq⟩))
    rw [hc, cons_append] at hstable
    have hin : c ∈ l₁ := mem_of_mem_filter (hc ▸ mem_cons_self)
    exact hnot ((List.cons.inj hstable).1 ▸ hin)
  · have hbl : b ∈ l₁ ++ a :: l₂ := mem_append_right _ (mem_cons_of_mem _ hb)
    have hab := hle b hbl
    rw [htotal.swap b hbl a ha, hbefore] at hab
    cases hab

/-- **What a stable sort puts first is preceded by none.** -/
theorem head_filter_iff (hsort : StableSort sortBy) (htotal : TotalOn cmp (l.filter p)) :
    (sortBy cmp (l.filter p)).head? = some a ↔
      ∃ l₁ l₂, l = l₁ ++ a :: l₂ ∧ p a = true ∧ ¬ Preceded cmp (fun b => p b = true) l₁ a l₂ := by
  have hfilter : ∀ m₁ m₂ b, Preceded cmp (fun _ => True) (m₁.filter p) b (m₂.filter p) ↔
      Preceded cmp (fun c => p c = true) m₁ b m₂ := by simp [Preceded, and_assoc]
  have hfirst : ∀ {b}, (sortBy cmp (l.filter p)).head? = some b →
      ∃ l₁ l₂, l = l₁ ++ b :: l₂ ∧ p b = true ∧ ¬ Preceded cmp (fun b => p b = true) l₁ b l₂ := by
    intro b h
    obtain ⟨r₁, r₂, hsplit, hnone⟩ := not_preceded_of_head hsort htotal h
    obtain ⟨l₁, rest, rfl, rfl, hrest⟩ := filter_eq_append_iff.mp hsplit
    obtain ⟨l₂, l₃, rfl, hout, hpb, rfl⟩ := filter_eq_cons_iff.mp hrest
    refine ⟨l₁ ++ l₂, l₃, by rw [append_assoc], hpb, fun h => hnone ?_⟩
    rw [← hfilter, filter_append, filter_eq_nil_iff.mpr hout, append_nil] at h
    exact h
  refine ⟨hfirst, fun ⟨l₁, l₂, hsplit, hpa, hnone⟩ => ?_⟩
  have ha : a ∈ l.filter p := mem_filter.mpr ⟨by rw [hsplit]; simp, hpa⟩
  cases h : (sortBy cmp (l.filter p)).head? with
  | none =>
    have hmem := (hsort.perm cmp _).mem_iff.mpr ha
    rw [head?_eq_none_iff.mp h] at hmem
    cases hmem
  | some b =>
    obtain ⟨m₁, m₂, hsplit', hpb, hnone'⟩ := hfirst h
    have hb : b ∈ l.filter p := mem_filter.mpr ⟨by rw [hsplit']; simp, hpb⟩
    rw [eq_of_not_preceded (htotal.swap b hb a ha) hpb hpa (hsplit'.symm.trans hsplit) hnone' hnone]

/-- A stable sort by any comparison. -/
def mergeSortBy (cmp : α → α → Ordering) (l : List α) : List α :=
  (l.attach.mergeSort (fun a b => (cmp a.1 b.1).isLE)).map Subtype.val

theorem total_isLE (htotal : TotalOn cmp l) (a b : {a // a ∈ l}) :
    ((cmp a.1 b.1).isLE || (cmp b.1 a.1).isLE) = true := by
  rw [htotal.swap a.1 a.2 b.1 b.2]
  cases cmp a.1 b.1 <;> rfl

theorem trans_isLE (htotal : TotalOn cmp l) (a b c : {a // a ∈ l}) :
    (cmp a.1 b.1).isLE → (cmp b.1 c.1).isLE → (cmp a.1 c.1).isLE :=
  htotal.trans a.1 a.2 b.1 b.2 c.1 c.2

theorem mergeSortBy_stable : StableSort (mergeSortBy (α := α)) where
  perm cmp l := by
    have := (mergeSort_perm l.attach (fun a b => (cmp a.1 b.1).isLE)).map Subtype.val
    rwa [attach_map_subtype_val] at this
  sorted cmp l htotal :=
    pairwise_map.mpr (pairwise_mergeSort (trans_isLE htotal) (total_isLE htotal) _)
  stable cmp l htotal a ha := by
    -- The equals of an element are a sorted sublist, which the sort keeps.
    have heqs : ((l.attach.filter (fun b => cmp a b.1 = .eq)).Pairwise
        (fun b c => (cmp b.1 c.1).isLE = true)) := by
      refine pairwise_of_forall_mem_list (fun b hb c hc => ?_)
      have hab := of_decide_eq_true (mem_filter.mp hb).2
      have hac := of_decide_eq_true (mem_filter.mp hc).2
      refine htotal.trans b.1 b.2 a ha c.1 c.2 ?_ ?_
      · rw [htotal.swap a ha b.1 b.2, hab]
        rfl
      · rw [hac]
        rfl
    have hperm := mergeSort_perm l.attach (fun b c => (cmp b.1 c.1).isLE)
    have hsub := (sublist_mergeSort (trans_isLE htotal) (total_isLE htotal) heqs
      filter_sublist).filter (fun b => cmp a b.1 = .eq)
    rw [filter_filter] at hsub
    simp only [Bool.and_self] at hsub
    have hsame := hsub.eq_of_length ((hperm.filter _).length_eq).symm
    rw [mergeSortBy, filter_map]
    refine (congrArg (List.map Subtype.val) hsame.symm).trans ?_
    rw [← attach_map_subtype_val l, filter_map, attach_map_subtype_val]
    rfl

/-- By a comparison that orders nothing any element may come first. -/
theorem exists_head (h : ¬ TotalOn cmp l) (ha : a ∈ l) :
    ∃ sortBy, StableSort sortBy ∧ (sortBy cmp l).head? = some a := by
  classical
  let sortBy : (α → α → Ordering) → List α → List α := fun cmp l =>
    if TotalOn cmp l then mergeSortBy cmp l else if a ∈ l then a :: l.erase a else l
  have hyes : ∀ {cmp l}, TotalOn cmp l → sortBy cmp l = mergeSortBy cmp l := fun h => if_pos h
  refine ⟨sortBy, ⟨fun cmp l => ?_, fun cmp l htotal => ?_, fun cmp l htotal => ?_⟩, ?_⟩
  · by_cases htotal : TotalOn cmp l
    · rw [hyes htotal]
      exact mergeSortBy_stable.perm cmp l
    · by_cases ha : a ∈ l
      · rw [show sortBy cmp l = a :: l.erase a from (if_neg htotal).trans (if_pos ha)]
        exact (perm_cons_erase ha).symm
      · rw [show sortBy cmp l = l from (if_neg htotal).trans (if_neg ha)]
  · rw [hyes htotal]
    exact mergeSortBy_stable.sorted cmp l htotal
  · rw [hyes htotal]
    exact mergeSortBy_stable.stable cmp l htotal
  · rw [show sortBy cmp l = a :: l.erase a from (if_neg h).trans (if_pos ha)]
    rfl

end Comparison
/-! ### Narrowing down -/

variable [DecidableEq β]

def narrow (l : Option (List β)) (m : List β) : Option (List β) :=
  some (match l with
    | none => m
    | some existing => existing.filter (fun b => decide (b ∈ m)))

def meet (ls : List (List β)) : Option (List β) := ls.foldl narrow none

theorem foldl_narrow (ls : List (List β)) (l : List β) : ls.foldl narrow (some l)
    = some (l.filter (fun b => decide (∀ m ∈ ls, b ∈ m))) := by
  induction ls generalizing l with
  | nil => simp
  | cons m ls ih =>
    rw [foldl_cons, narrow, ih, filter_filter]
    congr 1
    refine filter_congr (fun b _ => ?_)
    rw [← Bool.decide_and, decide_eq_decide, forall_mem_cons, and_comm]

theorem meet_eq (ls : List (List β)) :
    meet ls = ls.head?.map (fun l => l.filter (fun b => decide (∀ m ∈ ls, b ∈ m))) := by
  cases ls with
  | nil => rfl
  | cons l ls =>
    rw [meet, foldl_cons, narrow, foldl_narrow, head?_cons, Option.map_some]
    congr 1
    refine filter_congr (fun b hb => ?_)
    rw [decide_eq_decide, forall_mem_cons]
    exact (and_iff_right hb).symm

end Modbit.Lib
