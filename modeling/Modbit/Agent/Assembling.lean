import Modbit.Agent.IssuedCalls
import Mathlib.Data.List.Dedup
import Mathlib.Data.List.Induction
import Mathlib.Data.List.Pairwise

/-!
# Calls that arrive in fragments

`ToolCallAssembler` puts a fragment with an id to the call that has the id, and one without to the
first call that has its index; a fragment for which there is no call starts one.  The calls of a
message are the fragments that were put together so (`calls`), and the partial calls of the
assembler are what they come to (`feed_fragment`).

Fragments that share an id or an index are in one call exactly when an id that comes with an index
comes with the first fragment of that index, and an index that comes alone is the first one of its
id (`together_iff`).
-/

namespace Modbit

open Lib List

namespace Agent

namespace ToolCallAssembler

/-! ### Fragments and their calls -/

structure Fragment where
  callId : Option String
  index : Option UInt32
  name : Option String
  text : String
  deriving DecidableEq

def fragmentOf : StreamEvent → Option Fragment
  | .toolCallDelta callId index name argumentsDelta => some ⟨callId, index, name, argumentsDelta⟩
  | _ => none

/-- Two fragments have an id in common, or an index. -/
def Shares (f g : Fragment) : Prop :=
  (f.callId.isSome ∧ f.callId = g.callId) ∨ (f.index.isSome ∧ f.index = g.index)

instance (f g : Fragment) : Decidable (Shares f g) := inferInstanceAs (Decidable (_ ∨ _))

variable {f g : Fragment}

theorem Shares.symm (h : Shares f g) : Shares g f := by
  rcases h with ⟨hsome, heq⟩ | ⟨hsome, heq⟩
  · exact Or.inl ⟨heq ▸ hsome, heq.symm⟩
  · exact Or.inr ⟨heq ▸ hsome, heq.symm⟩

variable {x : String}

theorem shares_of_callId (hf : f.callId = some x)
    (hg : g.callId = some x) : Shares f g := Or.inl ⟨by rw [hf]; rfl, hf.trans hg.symm⟩

variable {k : UInt32}

theorem shares_of_index (hf : f.index = some k)
    (hg : g.index = some k) : Shares f g := Or.inr ⟨by rw [hf]; rfl, hf.trans hg.symm⟩

/-- The fragments of a call, in the order they arrived. -/
abbrev Call := List Fragment

def partialOf (c : Call) : PartialToolCall :=
  c.foldl (fun p f => extend f.callId f.index f.name f.text p) ⟨none, none, "", ""⟩

def idOf (c : Call) : Option String := c.findSome? Fragment.callId

def indexOf (c : Call) : Option UInt32 := c.findSome? Fragment.index

def nameOf (c : Call) : String := ((c.filterMap Fragment.name).getLast?).getD ""

def textOf (c : Call) : String := String.join (c.map Fragment.text)

theorem partialOf_concat (c : Call) (f : Fragment) :
    partialOf (c ++ [f]) = extend f.callId f.index f.name f.text (partialOf c) := by
  rw [partialOf, foldl_append]
  rfl

theorem partialOf_eq (c : Call) : partialOf c = ⟨idOf c, indexOf c, nameOf c, textOf c⟩ := by
  induction c using List.reverseRecOn with
  | nil => rfl
  | append_singleton c f ih =>
    rw [partialOf_concat, ih, extend]
    have hid : idOf (c ++ [f]) = (idOf c).or f.callId := by
      rw [idOf, findSome?_append]
      simp [idOf]
    have hindex : indexOf (c ++ [f]) = (indexOf c).or f.index := by
      rw [indexOf, findSome?_append]
      simp [indexOf]
    have hname : nameOf (c ++ [f]) = f.name.getD (nameOf c) := by
      rw [nameOf, filterMap_append]
      cases h : f.name with
      | none => simp [nameOf, h]
      | some n => simp [h]
    have htext : textOf (c ++ [f]) = textOf c ++ f.text := by
      rw [textOf, map_append, String.join_append]
      simp [textOf]
    rw [hid, hindex, hname, htext]

/-- `isFor`, for the calls. -/
def goesTo (f : Fragment) (c : Call) : Bool := isFor f.callId f.index (partialOf c)

theorem goesTo_of_callId (h : f.callId = some x) (c : Call) :
    goesTo f c = true ↔ idOf c = some x := by
  rw [goesTo, h, partialOf_eq]
  exact decide_eq_true_iff

theorem goesTo_of_index (h : f.callId = none) (hk : f.index = some k)
    (c : Call) : goesTo f c = true ↔ indexOf c = some k := by
  rw [goesTo, h, partialOf_eq, hk]
  exact decide_eq_true_iff

theorem not_goesTo (h : f.callId = none) (hk : f.index = none) (c : Call) : goesTo f c = false := by
  rw [goesTo, h, hk]
  rfl

def join (cs : List Call) (f : Fragment) : List Call :=
  if cs.any (goesTo f) then cs.modify (cs.findIdx (goesTo f)) (· ++ [f]) else cs ++ [[f]]

def calls (fragments : List Fragment) : List Call := fragments.foldl join []

theorem calls_concat (fragments : List Fragment) (f : Fragment) :
    calls (fragments ++ [f]) = join (calls fragments) f := by
  rw [calls, foldl_append]
  rfl

theorem exists_modify_findIdx {α : Type} {p : α → Bool} {l : List α} (h : l.any p = true) :
    ∃ a c b, l = a ++ c :: b ∧ (∀ d ∈ a, p d = false) ∧ p c = true ∧
      ∀ f, l.modify (l.findIdx p) f = a ++ f c :: b := by
  induction l with
  | nil => cases h
  | cons x l ih =>
    cases hx : p x with
    | true =>
      refine ⟨[], x, l, rfl, fun d hd => (by cases hd), hx, fun f => ?_⟩
      rw [findIdx_cons, hx, cond_true, modify_zero_cons, nil_append]
    | false =>
      rw [any_cons, hx, Bool.false_or] at h
      obtain ⟨a, c, b, rfl, ha, hc, hmodify⟩ := ih h
      refine ⟨x :: a, c, b, rfl, forall_mem_cons.mpr ⟨hx, ha⟩, hc, fun f => ?_⟩
      rw [findIdx_cons, hx, cond_false, modify_succ_cons, hmodify]
      rfl

theorem map_modify {α β : Type} {g : α → β} {h : α → α} {h' : β → β} (hg : ∀ x, g (h x) = h' (g x))
    (l : List α) : ∀ i, (l.map g).modify i h' = (l.modify i h).map g := by
  induction l with
  | nil => intro i; rw [map_nil, modify_nil, modify_nil, map_nil]
  | cons x l ih =>
    intro i
    cases i with
    | zero => rw [map_cons, modify_zero_cons, modify_zero_cons, map_cons, hg]
    | succ i => rw [map_cons, modify_succ_cons, modify_succ_cons, map_cons, ih]

/-- **The assembler's partial calls are the calls.** -/
theorem feed_fragment (cs : List Call) (emitted : List String) (f : Fragment) :
    feed ⟨cs.map partialOf, emitted⟩ (.toolCallDelta f.callId f.index f.name f.text)
      = (⟨(join cs f).map partialOf, emitted⟩, []) := by
  have hsame : isFor f.callId f.index ∘ partialOf = goesTo f := rfl
  rw [feed, any_map, hsame]
  rw [join]
  split_ifs with hany
  · rw [findIdx_map, hsame]
    rw [map_modify (fun c => partialOf_concat c f)]
  · rw [map_append]
    have hnew : partialOf [f] = extend f.callId f.index f.name f.text ⟨f.callId, f.index, "", ""⟩ := by
      rw [partialOf, foldl_cons, foldl_nil, extend, extend]
      cases f.callId <;> cases f.index <;> rfl
    rw [map_singleton, hnew]

theorem join_cases (cs : List Call) (f : Fragment) :
    (∃ l c r, cs = l ++ c :: r ∧ (∀ d ∈ l, goesTo f d = false) ∧ goesTo f c = true ∧
      join cs f = l ++ (c ++ [f]) :: r) ∨
    ((∀ c ∈ cs, goesTo f c = false) ∧ join cs f = cs ++ [[f]]) := by
  by_cases hany : cs.any (goesTo f) = true
  · refine Or.inl ?_
    rw [join, if_pos hany]
    obtain ⟨l, c, r, hcs, hno, hc, hmodify⟩ := exists_modify_findIdx hany
    exact ⟨l, c, r, hcs, hno, hc, hmodify _⟩
  · refine Or.inr ⟨fun c hc => ?_, if_neg hany⟩
    exact Bool.eq_false_iff.mpr (fun hgoes => hany (any_eq_true.mpr ⟨c, hc, hgoes⟩))

/-! ### What is kept as fragments arrive -/

def firstIndex (fragments : List Fragment) (x : String) : Option UInt32 :=
  (fragments.filter (fun f => f.callId = some x)).findSome? Fragment.index

/-- The calls of some fragments: who is in them, and whose they are. -/
structure Kept (fragments : List Fragment) (cs : List Call) : Prop where
  perm : cs.flatten.Perm fragments
  sublist : ∀ c ∈ cs, c.Sublist fragments
  /-- A call has one id. -/
  ids : ∀ c ∈ cs, ∀ f ∈ c, ∀ x, f.callId = some x → idOf c = some x
  unique : cs.Pairwise (fun c d => ∀ x, idOf c = some x → idOf d ≠ some x)
  index : ∀ c ∈ cs, ∀ x, idOf c = some x → indexOf c = firstIndex fragments x
  /-- The first fragment with an index gives the call its id, or leaves it without. -/
  opener : ∀ k g, fragments.find? (fun f => f.index = some k) = some g →
    ∃ c ∈ cs, g ∈ c ∧ idOf c = g.callId
  /-- Fragments without an id have come by the index of their call. -/
  plain : ∀ c ∈ cs, ∀ f ∈ c, f.callId = none → f.index = indexOf c ∧ (idOf c ≠ none → f.index ≠ none)

theorem idOf_concat (c : Call) (f : Fragment) : idOf (c ++ [f]) = (idOf c).or f.callId := by
  rw [idOf, findSome?_append]
  simp [idOf]

theorem indexOf_concat (c : Call) (f : Fragment) : indexOf (c ++ [f]) = (indexOf c).or f.index := by
  rw [indexOf, findSome?_append]
  simp [indexOf]

variable {c : Call}

theorem exists_of_idOf (h : idOf c = some x) : ∃ f ∈ c, f.callId = some x :=
  exists_of_findSome?_eq_some h

theorem exists_of_indexOf (h : indexOf c = some k) :
    ∃ f ∈ c, f.index = some k := exists_of_findSome?_eq_some h

theorem firstIndex_concat (fragments : List Fragment) (f : Fragment) (x : String) :
    firstIndex (fragments ++ [f]) x
      = (firstIndex fragments x).or (if f.callId = some x then f.index else none) := by
  rw [firstIndex, filter_append, findSome?_append]
  split_ifs with h
  · rw [filter_cons_of_pos (by simpa using h)]
    simp [firstIndex]
  · rw [filter_cons_of_neg (by simpa using h)]
    simp [firstIndex]

section Step

variable {fragments : List Fragment} {cs : List Call} {f : Fragment}

theorem Kept.mem (h : Kept fragments cs) : f ∈ fragments ↔ ∃ c ∈ cs, f ∈ c := by
  rw [← h.perm.mem_iff, mem_flatten]

variable {c : Call}

theorem goesTo_idOf (h : goesTo f c = true) : idOf (c ++ [f]) = idOf c := by
  rw [idOf_concat]
  cases hid : f.callId with
  | none => rw [Option.or_none]
  | some x => rw [(goesTo_of_callId hid c).mp h, Option.some_or]

theorem goesTo_plain (h : goesTo f c = true) (hid : f.callId = none) :
    ∃ k, f.index = some k ∧ indexOf c = some k := by
  cases hk : f.index with
  | none =>
    rw [not_goesTo hid hk] at h
    cases h
  | some k => exact ⟨k, rfl, (goesTo_of_index hid hk c).mp h⟩

theorem Kept.firstIndex_of_new (h : Kept fragments cs) {x : String}
    (hno : ∀ c ∈ cs, idOf c ≠ some x) : firstIndex fragments x = none := by
  have hnil : fragments.filter (fun f => f.callId = some x) = [] := by
    rw [filter_eq_nil_iff]
    intro g hg hx
    obtain ⟨c, hc, hgc⟩ := h.mem.mp hg
    exact hno c hc (h.ids c hc g hgc x (of_decide_eq_true hx))
  rw [firstIndex, hnil]
  rfl

theorem index_of_find? {k : UInt32} {g : Fragment}
    (h : fragments.find? (fun f => f.index = some k) = some g) : g.index = some k := by
  simpa using find?_some h

theorem find?_isSome_of_index {k : UInt32} {g : Fragment} (hg : g ∈ fragments)
    (hk : g.index = some k) : (fragments.find? (fun f => f.index = some k)).isSome = true :=
  find?_isSome.mpr ⟨g, hg, by simpa using hk⟩

theorem find?_concat (k : UInt32) (fragments : List Fragment) (f g : Fragment)
    (h : (fragments ++ [f]).find? (fun f => f.index = some k) = some g) :
    fragments.find? (fun f => f.index = some k) = some g ∨
      (fragments.find? (fun f => f.index = some k) = none ∧ f.index = some k ∧ g = f) := by
  rw [find?_append] at h
  cases hfound : fragments.find? (fun f => f.index = some k) with
  | some g' =>
    rw [hfound, Option.some_or] at h
    exact Or.inl h
  | none =>
    rw [hfound, Option.none_or, find?_singleton] at h
    split_ifs at h with hk
    exact Or.inr ⟨rfl, of_decide_eq_true hk, (Option.some.inj h).symm⟩

theorem Kept.joined {l r : List Call} (h : Kept fragments (l ++ c :: r))
    (hgoes : goesTo f c = true) : Kept (fragments ++ [f]) (l ++ (c ++ [f]) :: r) := by
  have hpair := h.unique
  rw [pairwise_append, pairwise_cons] at hpair
  obtain ⟨hl, ⟨hcr, hr⟩, hcross⟩ := hpair
  have hmem : ∀ d, d ∈ l ++ (c ++ [f]) :: r → d = c ++ [f] ∨
      (d ∈ l ++ c :: r ∧ ∀ x, f.callId = some x → idOf d ≠ some x) := by
    intro d hd
    have hown : ∀ x, f.callId = some x → idOf c = some x := fun x hx =>
      (goesTo_of_callId hx c).mp hgoes
    rcases mem_append.mp hd with hd | hd
    · refine Or.inr ⟨mem_append_left _ hd, fun x hx hdx => ?_⟩
      exact hcross d hd c mem_cons_self x hdx (hown x hx)
    · rcases mem_cons.mp hd with rfl | hd
      · exact Or.inl rfl
      · refine Or.inr ⟨mem_append_right _ (mem_cons_of_mem _ hd), fun x hx => ?_⟩
        exact hcr d hd x (hown x hx)
  have hc : c ∈ l ++ c :: r := mem_append_right _ mem_cons_self
  have hc' : c ++ [f] ∈ l ++ (c ++ [f]) :: r := mem_append_right _ mem_cons_self
  refine ⟨?_, ?_, ?_, ?_, ?_, ?_, ?_⟩
  · rw [flatten_append, flatten_cons, append_assoc c]
    have hperm := h.perm
    rw [flatten_append, flatten_cons] at hperm
    have hmove : (l.flatten ++ (c ++ ([f] ++ r.flatten))).Perm
        ((l.flatten ++ (c ++ r.flatten)) ++ [f]) := by
      rw [append_assoc l.flatten]
      refine List.Perm.append_left _ ?_
      rw [append_assoc c]
      exact List.Perm.append_left _ perm_append_comm
    exact hmove.trans (hperm.append_right [f])
  · intro d hd
    rcases hmem d hd with rfl | ⟨hd, -⟩
    · exact (h.sublist c hc).append (List.Sublist.refl [f])
    · exact (h.sublist d hd).trans (sublist_append_left _ _)
  · intro d hd g hg x hx
    rcases hmem d hd with rfl | ⟨hd, -⟩
    · rw [goesTo_idOf hgoes]
      rcases mem_append.mp hg with hg | hg
      · exact h.ids c hc g hg x hx
      · rw [mem_singleton.mp hg] at hx
        exact (goesTo_of_callId hx c).mp hgoes
    · exact h.ids d hd g hg x hx
  · rw [pairwise_append, pairwise_cons]
    refine ⟨hl, ⟨fun d hd => ?_, hr⟩, fun a ha d hd => ?_⟩
    · rw [goesTo_idOf hgoes]
      exact hcr d hd
    · rcases mem_cons.mp hd with rfl | hd
      · rw [goesTo_idOf hgoes]
        exact hcross a ha c mem_cons_self
      · exact hcross a ha d (mem_cons_of_mem _ hd)
  · intro d hd x hx
    rw [firstIndex_concat]
    rcases hmem d hd with rfl | ⟨hd, hother⟩
    · rw [goesTo_idOf hgoes] at hx
      rw [indexOf_concat, h.index c hc x hx]
      split_ifs with hf
      · rfl
      · have hnone : f.callId = none := by
          cases hid : f.callId with
          | none => rfl
          | some y =>
            rw [(goesTo_of_callId hid c).mp hgoes] at hx
            exact absurd (hid.trans hx) hf
        obtain ⟨k, -, hk⟩ := goesTo_plain hgoes hnone
        rw [h.index c hc x hx] at hk
        rw [hk, Option.some_or, Option.some_or]
    · rw [h.index d hd x hx, if_neg (fun hf => hother x hf hx), Option.or_none]
  · intro k g hg
    rcases find?_concat k fragments f g hg with hg | ⟨hnone, hk, rfl⟩
    · obtain ⟨d, hd, hgd, hid⟩ := h.opener k g hg
      rcases mem_append.mp hd with hd | hd
      · exact ⟨d, mem_append_left _ hd, hgd, hid⟩
      · rcases mem_cons.mp hd with rfl | hd
        · exact ⟨_, hc', mem_append_left _ hgd, (goesTo_idOf hgoes).trans hid⟩
        · exact ⟨d, mem_append_right _ (mem_cons_of_mem _ hd), hgd, hid⟩
    · refine ⟨_, hc', mem_append_right _ mem_cons_self, ?_⟩
      rw [goesTo_idOf hgoes]
      cases hid : g.callId with
      | some x => exact (goesTo_of_callId hid c).mp hgoes
      | none =>
        -- no fragment before had the index
        obtain ⟨k', hk', hindex⟩ := goesTo_plain hgoes hid
        obtain ⟨e, he, hek⟩ := exists_of_indexOf hindex
        obtain rfl := Option.some.inj (hk.symm.trans hk')
        have hno := find?_eq_none.mp hnone e (h.mem.mpr ⟨c, hc, he⟩)
        exact absurd (decide_eq_true hek) hno
  · intro d hd g hg hid
    rcases hmem d hd with rfl | ⟨hd, -⟩
    · rw [goesTo_idOf hgoes, indexOf_concat]
      rcases mem_append.mp hg with hg | hg
      · obtain ⟨hindex, hsome⟩ := h.plain c hc g hg hid
        refine ⟨?_, hsome⟩
        cases hk : indexOf c with
        | some k => rw [hindex, hk, Option.some_or]
        | none =>
          -- the call has no index, so the fragment that comes has its id
          rw [hk] at hindex
          cases hf : f.callId with
          | some x =>
            refine absurd hindex (hsome ?_)
            rw [(goesTo_of_callId hf c).mp hgoes]
            exact Option.some_ne_none x
          | none =>
            obtain ⟨k, -, hindexed⟩ := goesTo_plain hgoes hf
            rw [hk] at hindexed
            cases hindexed
      · obtain rfl := mem_singleton.mp hg
        obtain ⟨k, hk, hindex⟩ := goesTo_plain hgoes hid
        rw [hindex, Option.some_or, hk]
        exact ⟨rfl, fun _ => Option.some_ne_none k⟩
    · exact h.plain d hd g hg hid

theorem Kept.started (h : Kept fragments cs) (hno : ∀ c ∈ cs, goesTo f c = false) :
    Kept (fragments ++ [f]) (cs ++ [[f]]) := by
  have hnew : ∀ x, f.callId = some x → ∀ c ∈ cs, idOf c ≠ some x := by
    intro x hx c hc hid
    have hgoes := hno c hc
    rw [(goesTo_of_callId hx c).mpr hid] at hgoes
    cases hgoes
  have hid : idOf [f] = f.callId := by rw [idOf]; cases h : f.callId <;> simp [h]
  have hindex : indexOf [f] = f.index := by rw [indexOf]; cases h : f.index <;> simp [h]
  have hmem : ∀ d, d ∈ cs ++ [[f]] → d ∈ cs ∨ d = [f] := fun d hd =>
    (mem_append.mp hd).imp_right mem_singleton.mp
  have hf : [f] ∈ cs ++ [[f]] := mem_append_right _ mem_cons_self
  refine ⟨?_, ?_, ?_, ?_, ?_, ?_, ?_⟩
  · rw [flatten_append, flatten_singleton]
    exact h.perm.append_right [f]
  · intro d hd
    rcases hmem d hd with hd | rfl
    · exact (h.sublist d hd).trans (sublist_append_left _ _)
    · exact sublist_append_right _ _
  · intro d hd g hg x hx
    rcases hmem d hd with hd | rfl
    · exact h.ids d hd g hg x hx
    · rw [hid, ← mem_singleton.mp hg]
      exact hx
  · rw [pairwise_append]
    refine ⟨h.unique, pairwise_singleton _ _, fun c hc d hd x hx => ?_⟩
    rw [mem_singleton.mp hd, hid]
    exact fun hfx => hnew x hfx c hc hx
  · intro d hd x hx
    rw [firstIndex_concat]
    rcases hmem d hd with hd | rfl
    · rw [h.index d hd x hx, if_neg (fun hf => hnew x hf d hd hx), Option.or_none]
    · rw [hid] at hx
      rw [h.firstIndex_of_new (hnew x hx), if_pos hx, Option.none_or, hindex]
  · intro k g hg
    rcases find?_concat k fragments f g hg with hg | ⟨-, -, rfl⟩
    · obtain ⟨d, hd, hgd, hid⟩ := h.opener k g hg
      exact ⟨d, mem_append_left _ hd, hgd, hid⟩
    · exact ⟨_, hf, mem_cons_self, hid⟩
  · intro d hd g hg hnone
    rcases hmem d hd with hd | rfl
    · exact h.plain d hd g hg hnone
    · obtain rfl := mem_singleton.mp hg
      exact ⟨hindex.symm, fun hsome => absurd (hid.trans hnone) hsome⟩

end Step

theorem kept_calls (fragments : List Fragment) : Kept fragments (calls fragments) := by
  induction fragments using List.reverseRecOn with
  | nil =>
    exact ⟨List.Perm.refl _, fun c hc => (by cases hc), fun c hc => (by cases hc), List.Pairwise.nil,
      fun c hc => (by cases hc), fun k g hg => (by cases hg), fun c hc => (by cases hc)⟩
  | append_singleton fragments f ih =>
    rw [calls_concat]
    rcases join_cases (calls fragments) f with ⟨l, c, r, hcs, -, hc, hjoin⟩ | ⟨hno, hjoin⟩
    · rw [hjoin]
      rw [hcs] at ih
      exact ih.joined hc
    · rw [hjoin]
      exact ih.started hno

/-! ### Fragments of one call -/

def Apart (c d : Call) : Prop := ∀ f ∈ c, ∀ g ∈ d, ¬ Shares f g

instance (c d : Call) : Decidable (Apart c d) :=
  inferInstanceAs (Decidable (∀ f ∈ c, ∀ g ∈ d, ¬ Shares f g))

variable {d : Call}

theorem Apart.symm (h : Apart c d) : Apart d c :=
  fun g hg f hf hshares => h f hf g hg hshares.symm

instance : Std.Symm Apart := ⟨fun _ _ h => h.symm⟩

theorem Apart.mono {c c' d : Call} (h : Apart c' d) (hsub : ∀ f ∈ c, f ∈ c') : Apart c d :=
  fun f hf => h f (hsub f hf)

theorem eq_of_shares {cs : List Call} (h : cs.Pairwise Apart) (hc : c ∈ cs) (hd : d ∈ cs)
    (hf : f ∈ c) (hg : g ∈ d) (hshares : Shares f g) : c = d := by
  by_contra hne
  exact h.forall hc hd hne f hf g hg hshares

/-- The id and the index of a fragment are those that the fragments before it have led to. -/
structure StraightAt (before : List Fragment) (f : Fragment) : Prop where
  /-- An id that comes with an index comes with the first fragment of the index. -/
  known : ∀ k g x, f.index = some k → before.find? (fun f => f.index = some k) = some g →
    f.callId = some x → g.callId = some x
  /-- An index that comes alone is the first one of its id. -/
  alone : ∀ k g x, f.index = some k → before.find? (fun f => f.index = some k) = some g →
    f.callId = none → g.callId = some x → firstIndex before x = some k

def Straight (fragments : List Fragment) : Prop :=
  ∀ before f, before ++ [f] <+: fragments → StraightAt before f

section Together

variable {before : List Fragment} {cs : List Call} {f : Fragment}

theorem pairwise_of_join (h : (join cs f).Pairwise Apart) : cs.Pairwise Apart := by
  rcases join_cases cs f with ⟨l, c, r, rfl, -, -, hjoin⟩ | ⟨-, hjoin⟩
  · rw [hjoin, pairwise_append, pairwise_cons] at h
    obtain ⟨hl, ⟨hcr, hr⟩, hcross⟩ := h
    rw [pairwise_append, pairwise_cons]
    have hsub : ∀ g ∈ c, g ∈ c ++ [f] := fun g hg => mem_append_left _ hg
    refine ⟨hl, ⟨fun d hd => (hcr d hd).mono hsub, hr⟩, fun a ha d hd => ?_⟩
    rcases mem_cons.mp hd with rfl | hd
    · exact ((hcross a ha _ mem_cons_self).symm.mono hsub).symm
    · exact hcross a ha d (mem_cons_of_mem _ hd)
  · rw [hjoin] at h
    exact (pairwise_append.mp h).1

theorem goesTo_of_join (h : (join cs f).Pairwise Apart) {c : Call} (hc : c ∈ cs) {g : Fragment}
    (hg : g ∈ c) (hshares : Shares f g) : goesTo f c = true := by
  rcases join_cases cs f with ⟨l, d, r, rfl, -, hd, hjoin⟩ | ⟨-, hjoin⟩
  · rw [hjoin, pairwise_append, pairwise_cons] at h
    obtain ⟨-, ⟨hdr, -⟩, hcross⟩ := h
    have hf : f ∈ d ++ [f] := mem_append_right _ mem_cons_self
    rcases mem_append.mp hc with hc | hc
    · exact absurd hshares.symm (hcross c hc _ mem_cons_self g hg f hf)
    · rcases mem_cons.mp hc with rfl | hc
      · exact hd
      · exact absurd hshares (hdr c hc f hf g hg)
  · rw [hjoin] at h
    exact absurd hshares.symm
      ((pairwise_append.mp h).2.2 c hc _ mem_cons_self g hg f mem_cons_self)

theorem straightAt_of_join (hkept : Kept before cs) (h : (join cs f).Pairwise Apart) :
    StraightAt before f := by
  refine ⟨fun k g x hk hg hx => ?_, fun k g x hk hg hnone hgx => ?_⟩
  · obtain ⟨c, hc, hgc, hid⟩ := hkept.opener k g hg
    have hgoes := goesTo_of_join h hc hgc
      (shares_of_index hk (index_of_find? hg))
    rw [← hid]
    exact (goesTo_of_callId hx c).mp hgoes
  · obtain ⟨c, hc, hgc, hid⟩ := hkept.opener k g hg
    have hgoes := goesTo_of_join h hc hgc
      (shares_of_index hk (index_of_find? hg))
    rw [← hkept.index c hc x (hid.trans hgx)]
    exact (goesTo_of_index hnone hk c).mp hgoes

theorem goesTo_of_straight (hkept : Kept before cs) (h : cs.Pairwise Apart)
    (hstraight : StraightAt before f) {d : Call} (hd : d ∈ cs) {g : Fragment} (hg : g ∈ d)
    (hshares : Shares f g) : goesTo f d = true := by
  rcases hshares with ⟨hsome, heq⟩ | ⟨hsome, heq⟩
  · obtain ⟨x, hx⟩ := Option.isSome_iff_exists.mp hsome
    exact (goesTo_of_callId hx d).mpr (hkept.ids d hd g hg x (heq.symm.trans hx))
  · obtain ⟨k, hk⟩ := Option.isSome_iff_exists.mp hsome
    have hgk : g.index = some k := heq.symm.trans hk
    -- the first fragment with the index is in this call too
    obtain ⟨e, he⟩ := Option.isSome_iff_exists.mp (find?_isSome_of_index
      (hkept.mem.mpr ⟨d, hd, hg⟩) hgk)
    have hek : e.index = some k := index_of_find? he
    obtain ⟨c, hc, hec, hid⟩ := hkept.opener k e he
    obtain rfl := eq_of_shares h hc hd hec hg (shares_of_index hek hgk)
    cases hf : f.callId with
    | some x =>
      exact (goesTo_of_callId hf c).mpr (hid.trans (hstraight.known k e x hk he hf))
    | none =>
      refine (goesTo_of_index hf hk c).mpr ?_
      cases hx : e.callId with
      | some x =>
        rw [hkept.index c hc x (hid.trans hx)]
        exact hstraight.alone k e x hk he hf hx
      | none => exact (hkept.plain c hc e hec hx).1.symm.trans hek

theorem join_apart (hkept : Kept before cs) (h : cs.Pairwise Apart) (hstraight : StraightAt before f) :
    (join cs f).Pairwise Apart := by
  have hgoes : ∀ d ∈ cs, goesTo f d = false → Apart [f] d := by
    intro d hd hno f' hf' g hg hshares
    rw [mem_singleton.mp hf'] at hshares
    rw [goesTo_of_straight hkept h hstraight hd hg hshares] at hno
    cases hno
  have hboth : ∀ c d : Call, Apart c d → Apart [f] d → Apart (c ++ [f]) d := by
    intro c d hcd hfd g hg
    rcases mem_append.mp hg with hg | hg
    · exact hcd g hg
    · exact hfd g hg
  rcases join_cases cs f with ⟨l, c, r, rfl, hl, hc, hjoin⟩ | ⟨hno, hjoin⟩
  · rw [hjoin]
    have hunique := hkept.unique
    have hmem : c ∈ l ++ c :: r := mem_append_right _ mem_cons_self
    rw [pairwise_append, pairwise_cons] at h hunique ⊢
    obtain ⟨hal, ⟨hcr, har⟩, hcross⟩ := h
    refine ⟨hal, ⟨fun d hd => hboth c d (hcr d hd) ?_, har⟩, fun a ha d hd => ?_⟩
    · -- a later call it would go to as well
      refine hgoes d (mem_append_right _ (mem_cons_of_mem _ hd)) ?_
      by_contra hgoes'
      rw [Bool.not_eq_false] at hgoes'
      cases hf : f.callId with
      | some x =>
        exact hunique.2.1.1 d hd x ((goesTo_of_callId hf c).mp hc)
          ((goesTo_of_callId hf d).mp hgoes')
      | none =>
        obtain ⟨k, hk, hck⟩ := goesTo_plain hc hf
        obtain ⟨g, hg, hgk⟩ := exists_of_indexOf hck
        obtain ⟨e, he, hek⟩ := exists_of_indexOf ((goesTo_of_index hf hk d).mp hgoes')
        exact hcr d hd g hg e he (shares_of_index hgk hek)
    · rcases mem_cons.mp hd with rfl | hd
      · refine (hboth c a (hcross a ha c mem_cons_self).symm ?_).symm
        exact hgoes a (mem_append_left _ ha) (hl a ha)
      · exact hcross a ha d (mem_cons_of_mem _ hd)
  · rw [hjoin, pairwise_append]
    refine ⟨h, pairwise_singleton _ _, fun c hc d hd => ?_⟩
    rw [mem_singleton.mp hd]
    exact (hgoes c hc (hno c hc)).symm

end Together

/-- **The fragments of a message that share an id or an index are in one call exactly when it is
straight.** -/
theorem together_iff (fragments : List Fragment) :
    (calls fragments).Pairwise Apart ↔ Straight fragments := by
  induction fragments using List.reverseRecOn with
  | nil =>
    refine iff_of_true List.Pairwise.nil (fun before f h => ?_)
    exact absurd (prefix_nil.mp h) (by simp)
  | append_singleton fragments f ih =>
    have hkept := kept_calls fragments
    rw [calls_concat]
    constructor
    · intro h before g hbegin
      rcases prefix_concat_iff.mp hbegin with heq | hbegin
      · obtain ⟨rfl, hg⟩ := append_inj' heq rfl
        rw [singleton_inj.mp hg]
        exact straightAt_of_join hkept h
      · exact ih.mp (pairwise_of_join h) before g hbegin
    · intro h
      refine join_apart hkept (ih.mpr (fun before g hbegin => ?_)) (h fragments f prefix_rfl)
      exact h before g (hbegin.trans (prefix_append _ _))

end ToolCallAssembler

end Agent

end Modbit
