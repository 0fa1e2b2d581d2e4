import Mathlib.Data.List.Shortlex
import Mathlib.Data.List.Nodup
import Mathlib.Data.List.Perm.Subperm
import Mathlib.Logic.Relation

/-!
# Breadth-first search over a list of edges

The search takes vertices from a queue and goes through all edges for each of them; an edge from
the vertex into one not seen yet puts that one into the parent map and into the queue, and if it
is one to stop at the search ends there.

A walk is told by the positions of its edges in the list.  The search sees vertices in the order of
their first walks, shorter ones first and then by positions: when it stops, it has seen the
vertices with a walk before the first one to a vertex to stop at (`search_spec`).  The start is
among them if a walk leads back to it, and then the parents of a vertex go round for ever
(`climb_loops`); otherwise they lead back to the start (`climb_route`).
-/

namespace Modbit.Lib

namespace Breadth

open List

variable {V E : Type*}

/-! ### Walks -/

section Walks

/-- One walk is before another: shorter, or as long and first where they differ. -/
abbrev Before (p q : List Nat) : Prop := List.Shortlex (· < ·) p q

variable (src dst : E → V) (edges : List E)

/-- A walk from a vertex, by the positions of its edges. -/
inductive Walk (start : V) : List Nat → V → Prop
  | nil : Walk start [] start
  | snoc {p : List Nat} {e : E} {i : Nat} (hp : Walk start p (src e))
      (he : edges[i]? = some e) : Walk start (p ++ [i]) (dst e)

def Step (a b : V) : Prop := ∃ e ∈ edges, src e = a ∧ dst e = b

variable {src dst edges} {start v : V} {p q r : List Nat} {i j : Nat}

theorem Before.trans (hpq : Before p q) (hqr : Before q r) : Before p r := by
  rcases shortlex_def.mp hpq with hlt | ⟨heq, hlex⟩
  · rcases shortlex_def.mp hqr with hlt' | ⟨heq', -⟩
    · exact .of_length_lt (Nat.lt_trans hlt hlt')
    · exact .of_length_lt (heq' ▸ hlt)
  · rcases shortlex_def.mp hqr with hlt' | ⟨heq', hlex'⟩
    · exact .of_length_lt (heq ▸ hlt')
    · exact .of_lex (heq.trans heq') (List.lt_trans hlex hlex')

theorem Before.irrefl (h : Before p p) : False := by
  rcases shortlex_def.mp h with hlt | ⟨-, hlex⟩
  · exact Nat.lt_irrefl _ hlt
  · exact lt_irrefl p hlex

theorem Before.nil_concat : Before [] (p ++ [i]) :=
  .of_length_lt (by rw [length_append]; exact Nat.succ_pos _)

theorem before_trichotomy (p q : List Nat) : Before p q ∨ p = q ∨ Before q p := by
  rcases Nat.lt_trichotomy p.length q.length with hlt | heq | hlt
  · exact .inl (.of_length_lt hlt)
  · rcases Std.Trichotomous.rel_or_eq_or_rel_swap (r := List.Lex (· < ·)) (a := p) (b := q)
      with hlex | h | hlex
    · exact .inl (.of_lex heq hlex)
    · exact .inr (.inl h)
    · exact .inr (.inr (.of_lex heq.symm hlex))
  · exact .inr (.inr (.of_length_lt hlt))

theorem lex_concat (p : List Nat) : ∀ q : List Nat, p.length = q.length →
    (List.Lex (· < ·) (p ++ [i]) (q ++ [j]) ↔ List.Lex (· < ·) p q ∨ p = q ∧ i < j) := by
  induction p with
  | nil =>
    intro q hlen
    obtain rfl := length_eq_zero_iff.mp hlen.symm
    simp
  | cons a p ih =>
    intro q hlen
    obtain ⟨b, q, rfl⟩ := exists_cons_of_length_eq_add_one hlen.symm
    have hrest := ih q (Nat.succ.inj hlen)
    rw [cons_append, cons_append, cons_lex_cons_iff, cons_lex_cons_iff, hrest, List.cons.injEq]
    tauto

theorem before_concat_iff : Before (p ++ [i]) (q ++ [j]) ↔ Before p q ∨ p = q ∧ i < j := by
  rw [Before, Before, shortlex_def, shortlex_def, length_append, length_append,
    length_singleton, length_singleton, Nat.add_lt_add_iff_right, Nat.add_right_cancel_iff]
  constructor
  · rintro (hlt | ⟨hlen, hlex⟩)
    · exact .inl (.inl hlt)
    · rcases (lex_concat p q hlen).mp hlex with hlex | heq
      · exact .inl (.inr ⟨hlen, hlex⟩)
      · exact .inr heq
  · rintro ((hlt | ⟨hlen, hlex⟩) | ⟨rfl, hlt⟩)
    · exact .inl hlt
    · exact .inr ⟨hlen, (lex_concat p q hlen).mpr (.inl hlex)⟩
    · exact .inr ⟨rfl, (lex_concat p p rfl).mpr (.inr ⟨rfl, hlt⟩)⟩

def AtMost (p q : List Nat) : Prop := p = q ∨ Before p q

theorem AtMost.trans (hpq : AtMost p q) (hqr : AtMost q r) : AtMost p r := by
  rcases hpq with rfl | hpq
  · exact hqr
  · rcases hqr with rfl | hqr
    · exact .inr hpq
    · exact .inr (hpq.trans hqr)

theorem AtMost.concat (h : AtMost p q) : AtMost (p ++ [i]) (q ++ [i]) := by
  rcases h with rfl | h
  · exact .inl rfl
  · exact .inr (before_concat_iff.mpr (.inl h))

theorem AtMost.not_before (h : AtMost p q) : ¬ Before q p := by
  intro hqp
  rcases h with rfl | hpq
  · exact hqp.irrefl
  · exact (hqp.trans hpq).irrefl

theorem Walk.eq_start (h : Walk src dst edges start p v) (hp : p = []) : v = start := by
  cases h with
  | nil => rfl
  | snoc _ _ => simp at hp

theorem Walk.end_eq (h : Walk src dst edges start p v) :
    v = ((p.getLast?.bind (fun i => edges[i]?)).map dst).getD start := by
  cases h with
  | nil => rfl
  | @snoc p e i _ he => rw [getLast?_concat, Option.bind_some, he, Option.map_some,
      Option.getD_some]

theorem Walk.transGen (h : Walk src dst edges start p v) (hne : p ≠ []) :
    Relation.TransGen (Step src dst edges) start v := by
  induction h with
  | nil => exact absurd rfl hne
  | @snoc p e i hp he ih =>
    have hstep : Step src dst edges (src e) (dst e) := ⟨e, mem_of_getElem? he, rfl, rfl⟩
    by_cases hempty : p = []
    · rw [hp.eq_start hempty] at hstep
      exact .single hstep
    · exact (ih hempty).tail hstep

theorem Walk.last (h : Walk src dst edges start p v) (hne : p ≠ []) : ∃ e ∈ edges, dst e = v := by
  cases h with
  | nil => exact absurd rfl hne
  | @snoc p e i _ he => exact ⟨e, mem_of_getElem? he, rfl⟩

theorem exists_walk (h : Relation.TransGen (Step src dst edges) start v) :
    ∃ p ≠ [], Walk src dst edges start p v := by
  induction h with
  | single hstep =>
    obtain ⟨e, he, rfl, rfl⟩ := hstep
    obtain ⟨i, hi⟩ := mem_iff_getElem?.mp he
    exact ⟨[] ++ [i], by simp, .snoc .nil hi⟩
  | tail _ hstep ih =>
    obtain ⟨p, -, hp⟩ := ih
    obtain ⟨e, he, rfl, rfl⟩ := hstep
    obtain ⟨i, hi⟩ := mem_iff_getElem?.mp he
    exact ⟨p ++ [i], by simp, .snoc hp hi⟩

end Walks

/-! ### The search -/

section Search

variable [DecidableEq V] (src dst : E → V) (edges : List E) (stop : V → Bool)

structure Queued (V : Type*) where
  parent : List (V × V)
  queue : List V

/-- The loop over the edges for one vertex.  An error is the parent map with which the search
stops. -/
def scan (current : V) : List E → Queued V → Except (List (V × V)) (Queued V)
  | [], s => .ok s
  | e :: rest, s =>
    if src e = current ∧ dst e ∉ s.parent.map Prod.fst then
      let parent := s.parent ++ [(dst e, current)]
      if stop (dst e) then .error parent
      else scan current rest ⟨parent, s.queue ++ [dst e]⟩
    else scan current rest s

/-- The loop over the queue, `none` when the fuel runs out. -/
def search : Nat → Queued V → Option (Except (List (V × V)) (List (V × V)))
  | 0, _ => none
  | fuel + 1, s =>
    match s.queue with
    | [] => some (.ok s.parent)
    | current :: queue =>
      match scan src dst stop current edges ⟨s.parent, queue⟩ with
      | .error parent => some (.error parent)
      | .ok s' => search fuel s'

/-- The loop that goes up the parents: `route` is what it has gone up so far. -/
def climb (parent : List (V × V)) : Nat → V → List V → Option (List V)
  | 0, _, _ => none
  | fuel + 1, node, route =>
    match parent.lookup node with
    | some prev => climb parent fuel prev (route ++ [prev])
    | none => some route.reverse

end Search

/-! ### Vertices in the order of their first walks -/

section Ranked

variable (src dst : E → V) (edges : List E) (start : V)

/-- The vertices seen, each with a walk to it, once the edges of the first `n` of them and `i` of
those of the next one are gone through. -/
structure Ranked (found : List (V × List Nat)) (n i : Nat) : Prop where
  sorted : ((start, []) :: found).Pairwise (fun a b => Before a.2 b.2)
  walks : ∀ a ∈ found, Walk src dst edges start a.2 a.1
  source : ∀ a ∈ found, ∃ k b j, ((start, []) :: found)[k]? = some b ∧ a.2 = b.2 ++ [j] ∧
    (k < n ∨ k = n ∧ j < i)
  closed : ∀ k b j e, ((start, []) :: found)[k]? = some b → edges[j]? = some e → src e = b.1 →
    (k < n ∨ k = n ∧ j < i) → ∃ q, (dst e, q) ∈ found ∧ AtMost q (b.2 ++ [j])
  fresh : (found.map Prod.fst).Nodup

variable {src dst edges start} {found : List (V × List Nat)} {n i k : Nat} {a b : V × List Nat}

theorem ranked_start : Ranked src dst edges start [] 0 0 where
  sorted := pairwise_singleton _ _
  walks := fun _ h => absurd h not_mem_nil
  source := fun _ h => absurd h not_mem_nil
  closed := fun k b j e _ _ _ h => by omega
  fresh := nodup_nil

theorem Ranked.before_of_lt (h : Ranked src dst edges start found n i)
    (ha : ((start, []) :: found)[n]? = some a) (hb : ((start, []) :: found)[k]? = some b)
    (hlt : n < k) : Before a.2 b.2 := by
  obtain ⟨hn, rfl⟩ := List.getElem?_eq_some_iff.mp ha
  obtain ⟨hk, rfl⟩ := List.getElem?_eq_some_iff.mp hb
  exact pairwise_iff_getElem.mp h.sorted n k hn hk hlt

theorem Ranked.ne_nil (h : Ranked src dst edges start found n i) (ha : a ∈ found) : a.2 ≠ [] := by
  obtain ⟨k, b, j, -, heq, -⟩ := h.source a ha
  rw [heq]
  simp

theorem Ranked.before_next (h : Ranked src dst edges start found n i)
    (ha : ((start, []) :: found)[n]? = some a) (hb : b ∈ found) : Before b.2 (a.2 ++ [i]) := by
  obtain ⟨k, c, j, hc, heq, hdone⟩ := h.source b hb
  rw [heq, before_concat_iff]
  rcases hdone with hlt | ⟨rfl, hlt⟩
  · have hc' : Before c.2 a.2 := by
      obtain ⟨hn, rfl⟩ := List.getElem?_eq_some_iff.mp ha
      obtain ⟨hk, rfl⟩ := List.getElem?_eq_some_iff.mp hc
      exact pairwise_iff_getElem.mp h.sorted k n hk hn hlt
    exact .inl hc'
  · rw [ha] at hc
    rw [← Option.some.inj hc]
    exact .inr ⟨rfl, hlt⟩

theorem Ranked.skip (h : Ranked src dst edges start found n i)
    (ha : ((start, []) :: found)[n]? = some a)
    (hold : ∀ e, edges[i]? = some e → src e = a.1 → dst e ∈ found.map Prod.fst) :
    Ranked src dst edges start found n (i + 1) where
  sorted := h.sorted
  walks := h.walks
  source := fun b hb => by
    obtain ⟨k, c, j, hc, heq, hdone⟩ := h.source b hb
    exact ⟨k, c, j, hc, heq, by omega⟩
  closed := fun k b j e hb he hsrc hdone => by
    by_cases hnew : k = n ∧ j = i
    · obtain ⟨rfl, rfl⟩ := hnew
      obtain rfl : a = b := Option.some.inj (ha.symm.trans hb)
      obtain ⟨c, hc, hdst⟩ := mem_map.mp (hold e he hsrc)
      refine ⟨c.2, ?_, .inr (h.before_next ha hc)⟩
      rw [← hdst]
      exact hc
    · exact h.closed k b j e hb he hsrc (by omega)
  fresh := h.fresh

theorem getElem?_append_one {x : V × List Nat} (hb : ((start, []) :: found)[k]? = some b) :
    ((start, []) :: (found ++ [x]))[k]? = some b := by
  rw [← cons_append, getElem?_append_left (List.getElem?_eq_some_iff.mp hb).1]
  exact hb

theorem Ranked.push {e : E} (h : Ranked src dst edges start found n i)
    (ha : ((start, []) :: found)[n]? = some a) (he : edges[i]? = some e) (hsrc : src e = a.1)
    (hnew : dst e ∉ found.map Prod.fst) :
    Ranked src dst edges start (found ++ [(dst e, a.2 ++ [i])]) n (i + 1) where
  sorted := by
    rw [← cons_append, pairwise_append]
    refine ⟨h.sorted, pairwise_singleton _ _, fun b hb c hc => ?_⟩
    rw [mem_singleton.mp hc]
    rcases mem_cons.mp hb with rfl | hb
    · exact .nil_concat
    · exact h.before_next ha hb
  walks := fun b hb => by
    rcases mem_append.mp hb with hb | hb
    · exact h.walks b hb
    · rw [mem_singleton.mp hb]
      refine .snoc ?_ he
      rw [hsrc]
      rcases mem_cons.mp (mem_of_getElem? ha) with rfl | hmem
      · exact .nil
      · exact h.walks a hmem
  source := fun b hb => by
    rcases mem_append.mp hb with hb | hb
    · obtain ⟨k, c, j, hc, heq, hdone⟩ := h.source b hb
      exact ⟨k, c, j, getElem?_append_one hc, heq, by omega⟩
    · rw [mem_singleton.mp hb]
      exact ⟨n, a, i, getElem?_append_one ha, rfl, .inr ⟨rfl, Nat.lt_succ_self i⟩⟩
  closed := fun k b j e' hb he' hsrc' hdone => by
    have hlen : n < ((start, []) :: found).length := (List.getElem?_eq_some_iff.mp ha).1
    have hb' : ((start, []) :: found)[k]? = some b := by
      rw [← cons_append, getElem?_append_left (by omega)] at hb
      exact hb
    by_cases hlast : k = n ∧ j = i
    · obtain ⟨rfl, rfl⟩ := hlast
      obtain rfl : a = b := Option.some.inj (ha.symm.trans hb')
      obtain rfl : e = e' := Option.some.inj (he.symm.trans he')
      exact ⟨_, mem_append_right _ mem_cons_self, .inl rfl⟩
    · obtain ⟨q, hq, hle⟩ := h.closed k b j e' hb' he' hsrc' (by omega)
      exact ⟨q, mem_append_left _ hq, hle⟩
  fresh := by
    rw [map_append, nodup_append]
    refine ⟨h.fresh, nodup_singleton _, fun v hv w hw => ?_⟩
    rintro rfl
    rw [map_singleton, mem_singleton] at hw
    rw [hw] at hv
    exact hnew hv

theorem Ranked.next (h : Ranked src dst edges start found n edges.length) :
    Ranked src dst edges start found (n + 1) 0 where
  sorted := h.sorted
  walks := h.walks
  source := fun b hb => by
    obtain ⟨k, c, j, hc, heq, hdone⟩ := h.source b hb
    exact ⟨k, c, j, hc, heq, .inl (by omega)⟩
  closed := fun k b j e hb he hsrc hdone => by
    have hj := (List.getElem?_eq_some_iff.mp he).1
    exact h.closed k b j e hb he hsrc (by omega)
  fresh := h.fresh

/-- **Every walk leads to a vertex seen, or is not before the next edge's.** -/
theorem Ranked.reach {v : V} {q : List Nat} (h : Ranked src dst edges start found n i)
    (hq : Walk src dst edges start q v) (hne : q ≠ []) :
    (∃ q', (v, q') ∈ found ∧ AtMost q' q) ∨
      ∃ a, ((start, []) :: found)[n]? = some a ∧ AtMost (a.2 ++ [i]) q := by
  induction hq with
  | nil => exact absurd rfl hne
  | @snoc q e j hq he ih =>
    obtain ⟨k, b, hb, hsrc, hle⟩ | ⟨a, ha, hle⟩ :
        (∃ (k : Nat) (b : V × List Nat), ((start, []) :: found)[k]? = some b ∧
        src e = b.1 ∧ AtMost b.2 q) ∨
        ∃ a, ((start, []) :: found)[n]? = some a ∧ AtMost (a.2 ++ [i]) q := by
      by_cases hempty : q = []
      · exact .inl ⟨0, (start, []), rfl, hq.eq_start hempty, .inl hempty.symm⟩
      · rcases ih hempty with ⟨q', hmem, hle⟩ | hlast
        · obtain ⟨k, hk⟩ := mem_iff_getElem?.mp (mem_cons_of_mem (start, []) hmem)
          exact .inl ⟨k, _, hk, rfl, hle⟩
        · exact .inr hlast
    · by_cases hdone : k < n ∨ k = n ∧ j < i
      · obtain ⟨q', hmem, hle'⟩ := h.closed k b j e hb he hsrc hdone
        exact .inl ⟨q', hmem, hle'.trans hle.concat⟩
      · -- the edge is still to come: its vertex is the current one or behind it
        have hn : n < ((start, []) :: found).length := by
          have := (List.getElem?_eq_some_iff.mp hb).1
          omega
        have ha := getElem?_eq_getElem hn
        refine .inr ⟨_, ha, ?_⟩
        rcases Nat.lt_or_ge n k with hlt | hge
        · have hbefore := h.before_of_lt ha hb hlt
          exact .trans (.inr (before_concat_iff.mpr (.inl hbefore))) hle.concat
        · obtain rfl : k = n := by omega
          rw [hb] at ha
          rw [← Option.some.inj ha]
          refine .trans ?_ hle.concat
          rcases Nat.lt_or_ge i j with hlt | hge'
          · exact .inr (before_concat_iff.mpr (.inr ⟨rfl, hlt⟩))
          · obtain rfl : i = j := by omega
            exact .inl rfl
    · refine .inr ⟨a, ha, hle.trans (.inr (.of_length_lt ?_))⟩
      rw [length_append]
      exact Nat.lt_succ_self _

theorem Ranked.length_le (h : Ranked src dst edges start found n i) :
    found.length ≤ edges.length := by
  have hsub : found.map Prod.fst ⊆ edges.map dst := by
    intro v hv
    obtain ⟨b, hb, rfl⟩ := mem_map.mp hv
    obtain ⟨e, he, hdst⟩ := (h.walks b hb).last (h.ne_nil hb)
    exact mem_map.mpr ⟨e, he, hdst⟩
  have hle := (h.fresh.subperm hsub).length_le
  rwa [length_map, length_map] at hle

end Ranked

/-! ### What the search ends with -/

section Spec

variable (src dst : E → V) (edges : List E) (start : V)

/-- A parent map in which every vertex was put in after its parent, along an edge. -/
inductive Traced : List (V × V) → Prop
  | nil : Traced []
  | push {parent : List (V × V)} {v p : V} (h : Traced parent)
      (hp : p = start ∨ p ∈ parent.map Prod.fst) (hstep : Step src dst edges p v)
      (hfresh : v ∉ parent.map Prod.fst) : Traced (parent ++ [(v, p)])

variable (stop : V → Bool)

/-- The search went through everything there is to reach. -/
structure Exhausted (parent : List (V × V)) : Prop where
  seen : ∀ v, v ∈ parent.map Prod.fst ↔ ∃ q ≠ [], Walk src dst edges start q v
  calm : ∀ v ∈ parent.map Prod.fst, stop v = false
  nodup : (parent.map Prod.fst).Nodup

/-- The search stopped with the first walk to a vertex to stop at. -/
structure Stopped (parent : List (V × V)) (target : V) (first : List Nat) : Prop where
  stops : stop target = true
  walk : Walk src dst edges start first target
  least : ∀ v q, stop v = true → q ≠ [] → Walk src dst edges start q v → AtMost first q
  seen : ∀ v, v ≠ target → (v ∈ parent.map Prod.fst ↔
    ∃ q ≠ [], Walk src dst edges start q v ∧ Before q first)
  found : target ∈ parent.map Prod.fst
  traced : Traced src dst edges start parent

/-- How a search stands that is at an edge of the `n`-th vertex. -/
structure Stands (found : List (V × List Nat)) (n i m : Nat) (s : Queued V) : Prop where
  ranked : Ranked src dst edges start found n i
  keys : s.parent.map Prod.fst = found.map Prod.fst
  queue : s.queue = (((start, []) :: found).drop m).map Prod.fst
  calm : ∀ a ∈ found, stop a.1 = false
  traced : Traced src dst edges start s.parent

variable {src dst edges start stop} {found : List (V × List Nat)} {n i m : Nat} {s : Queued V}
  {a : V × List Nat}

theorem Stands.stopped {e : E} (h : Stands src dst edges start stop found n i m s)
    (ha : ((start, []) :: found)[n]? = some a) (he : edges[i]? = some e) (hsrc : src e = a.1)
    (hnew : dst e ∉ s.parent.map Prod.fst) (hstop : stop (dst e) = true) :
    Stopped src dst edges start stop (s.parent ++ [(dst e, a.1)]) (dst e) (a.2 ++ [i]) := by
  have hnew' : dst e ∉ found.map Prod.fst := h.keys ▸ hnew
  have hpush := h.ranked.push ha he hsrc hnew'
  have hreach : ∀ {v q}, Walk src dst edges start q v → q ≠ [] → v ∉ found.map Prod.fst →
      AtMost (a.2 ++ [i]) q := by
    intro v q hq hne hv
    rcases h.ranked.reach hq hne with ⟨q', hmem, -⟩ | ⟨b, hb, hle⟩
    · exact absurd (mem_map_of_mem hmem) hv
    · rw [ha] at hb
      rwa [Option.some.inj hb]
  have hkeys : (s.parent ++ [(dst e, a.1)]).map Prod.fst = found.map Prod.fst ++ [dst e] := by
    rw [map_append, h.keys]
    rfl
  have hcurrent : a.1 = start ∨ a.1 ∈ s.parent.map Prod.fst := by
    rw [h.keys]
    rcases mem_cons.mp (mem_of_getElem? ha) with rfl | hmem
    · exact .inl rfl
    · exact .inr (mem_map_of_mem hmem)
  refine ⟨hstop, hpush.walks _ (mem_append_right _ mem_cons_self), ?_, ?_, ?_, ?_⟩
  · intro v q hv hne hq
    refine hreach hq hne (fun hmem => ?_)
    obtain ⟨b, hb, rfl⟩ := mem_map.mp hmem
    rw [h.calm b hb] at hv
    cases hv
  · intro v hv
    rw [hkeys, mem_append, mem_singleton, or_iff_left hv]
    constructor
    · intro hmem
      obtain ⟨b, hb, rfl⟩ := mem_map.mp hmem
      exact ⟨b.2, h.ranked.ne_nil hb, h.ranked.walks b hb, h.ranked.before_next ha hb⟩
    · rintro ⟨q, hne, hq, hbefore⟩
      by_contra hmem
      exact (hreach hq hne hmem).not_before hbefore
  · rw [hkeys]
    exact mem_append_right _ mem_cons_self
  · exact .push h.traced hcurrent ⟨e, mem_of_getElem? he, hsrc, rfl⟩ hnew

theorem Stands.exhausted (h : Stands src dst edges start stop found n 0 n s)
    (hn : ((start, []) :: found)[n]? = none) : Exhausted src dst edges start stop s.parent where
  seen := fun v => by
    rw [h.keys]
    constructor
    · intro hmem
      obtain ⟨b, hb, rfl⟩ := mem_map.mp hmem
      exact ⟨b.2, h.ranked.ne_nil hb, h.ranked.walks b hb⟩
    · rintro ⟨q, hne, hq⟩
      rcases h.ranked.reach hq hne with ⟨q', hmem, -⟩ | ⟨b, hb, -⟩
      · exact mem_map_of_mem hmem
      · rw [hn] at hb
        cases hb
  calm := fun v hv => by
    rw [h.keys] at hv
    obtain ⟨b, hb, rfl⟩ := mem_map.mp hv
    exact h.calm b hb
  nodup := h.keys ▸ h.ranked.fresh

theorem stands_start : Stands src dst edges start stop [] 0 0 0 ⟨[], [start]⟩ :=
  ⟨ranked_start, rfl, rfl, fun _ h => absurd h not_mem_nil, .nil⟩

theorem Traced.parents {parent : List (V × V)} (h : Traced src dst edges start parent) :
    ∀ x ∈ parent, x.2 = start ∨ x.2 ∈ parent.map Prod.fst := by
  induction h with
  | nil => exact fun _ hx => absurd hx not_mem_nil
  | @push parent v p _ hp _ _ ih =>
    intro x hx
    rw [map_append]
    rcases mem_append.mp hx with hx | hx
    · exact (ih x hx).imp_right (mem_append_left _)
    · rw [mem_singleton.mp hx]
      exact hp.imp_right (mem_append_left _)

variable [DecidableEq V]

/-- **The loop over the edges** either stops, or leaves the search at its vertex's end. -/
theorem scan_spec {rest : List E} : ∀ {i found s},
    Stands src dst edges start stop found n i (n + 1) s → i ≤ edges.length → edges.drop i = rest →
    ((start, []) :: found)[n]? = some a →
    match scan src dst stop a.1 rest s with
    | .error parent => ∃ target first, Stopped src dst edges start stop parent target first
    | .ok s' => ∃ found', Stands src dst edges start stop found' n edges.length (n + 1) s' ∧
        ((start, []) :: found')[n]? = some a := by
  induction rest with
  | nil =>
    intro i found s h hi hrest ha
    obtain rfl : i = edges.length := Nat.le_antisymm hi (drop_eq_nil_iff.mp hrest)
    exact ⟨found, h, ha⟩
  | cons e rest ih =>
    intro i found s h hi hrest ha
    have he : edges[i]? = some e := by
      rw [← head?_drop, hrest]
      rfl
    have hi' : i + 1 ≤ edges.length := (List.getElem?_eq_some_iff.mp he).1
    have hrest' : edges.drop (i + 1) = rest := by
      rw [← tail_drop, hrest]
      rfl
    rw [scan]
    by_cases hgo : src e = a.1 ∧ dst e ∉ s.parent.map Prod.fst
    · rw [if_pos hgo]
      obtain ⟨hsrc, hnew⟩ := hgo
      cases hstop : stop (dst e) with
      | true =>
        rw [if_pos rfl]
        exact ⟨dst e, a.2 ++ [i], h.stopped ha he hsrc hnew hstop⟩
      | false =>
        rw [if_neg Bool.false_ne_true]
        have hn : n < ((start, []) :: found).length := (List.getElem?_eq_some_iff.mp ha).1
        refine ih ⟨h.ranked.push ha he hsrc (h.keys ▸ hnew), ?_, ?_, ?_, ?_⟩ hi' hrest'
          (getElem?_append_one ha)
        · rw [map_append, map_append, h.keys]
          rfl
        · rw [← cons_append, drop_append_of_le_length hn, map_append, ← h.queue]
          rfl
        · intro b hb
          rcases mem_append.mp hb with hb | hb
          · exact h.calm b hb
          · rw [mem_singleton.mp hb]
            exact hstop
        · refine .push h.traced ?_ ⟨e, mem_of_getElem? he, hsrc, rfl⟩ hnew
          rw [h.keys]
          rcases mem_cons.mp (mem_of_getElem? ha) with rfl | hmem
          · exact .inl rfl
          · exact .inr (mem_map_of_mem hmem)
    · rw [if_neg hgo]
      refine ih ⟨h.ranked.skip ha (fun e' he' hsrc => ?_), h.keys, h.queue, h.calm, h.traced⟩ hi'
        hrest' ha
      obtain rfl : e = e' := Option.some.inj (he.symm.trans he')
      by_contra hnew
      exact hgo ⟨hsrc, h.keys ▸ hnew⟩

/-- **The search ends**, with all there is to reach or at the first walk to a vertex to stop at. -/
theorem search_spec (fuel : Nat) : ∀ {n found s}, Stands src dst edges start stop found n 0 n s →
    n ≤ found.length + 1 → edges.length + 2 ≤ fuel + n →
    (∃ parent, search src dst edges stop fuel s = some (.ok parent) ∧
      Exhausted src dst edges start stop parent) ∨
    ∃ parent target first, search src dst edges stop fuel s = some (.error parent) ∧
      Stopped src dst edges start stop parent target first := by
  induction fuel with
  | zero =>
    intro n found s h hn hfuel
    have := h.ranked.length_le
    omega
  | succ fuel ih =>
    intro n found s h hn hfuel
    rw [search]
    cases hqueue : s.queue with
    | nil =>
      refine .inl ⟨s.parent, rfl, h.exhausted ?_⟩
      have hdrop := h.queue.symm.trans hqueue
      rw [map_eq_nil_iff, drop_eq_nil_iff] at hdrop
      exact getElem?_eq_none hdrop
    | cons current queue =>
      have hdrop := h.queue.symm.trans hqueue
      obtain ⟨a, rest, hrest, rfl, rfl⟩ := map_eq_cons_iff.mp hdrop
      have ha : ((start, []) :: found)[n]? = some a := by
        rw [← head?_drop, hrest]
        rfl
      have htail : ((start, []) :: found).drop (n + 1) = rest := by
        rw [← tail_drop, hrest]
        rfl
      have hscan := scan_spec (s := ⟨s.parent, rest.map Prod.fst⟩)
        ⟨h.ranked, h.keys, by rw [htail], h.calm, h.traced⟩ (Nat.zero_le _) rfl ha
      dsimp only
      cases hresult : scan src dst stop a.1 edges ⟨s.parent, rest.map Prod.fst⟩ with
      | error parent =>
        rw [drop_zero, hresult] at hscan
        obtain ⟨target, first, hstopped⟩ := hscan
        exact .inr ⟨parent, target, first, rfl, hstopped⟩
      | ok s' =>
        rw [drop_zero, hresult] at hscan
        obtain ⟨found', hstands, ha'⟩ := hscan
        have hlen := (List.getElem?_eq_some_iff.mp ha').1
        rw [length_cons] at hlen
        exact ih ⟨hstands.ranked.next, hstands.keys, hstands.queue, hstands.calm, hstands.traced⟩
          (by omega) (by omega)

theorem search_more (fuel : Nat) : ∀ {s : Queued V} {r}, search src dst edges stop fuel s = some r →
    ∀ more ≥ fuel, search src dst edges stop more s = some r := by
  induction fuel with
  | zero =>
    intro s r h
    cases h
  | succ fuel ih =>
    intro s r h more hmore
    obtain ⟨more, rfl⟩ := Nat.exists_eq_add_of_lt (Nat.lt_of_lt_of_le (Nat.succ_pos fuel) hmore)
    rw [Nat.zero_add] at hmore ⊢
    rw [search] at h ⊢
    cases hqueue : s.queue with
    | nil =>
      rw [hqueue] at h
      exact h
    | cons current queue =>
      rw [hqueue] at h
      dsimp only at h ⊢
      cases hscan : scan src dst stop current edges ⟨s.parent, queue⟩ with
      | error parent =>
        rw [hscan] at h
        exact h
      | ok s' =>
        rw [hscan] at h
        exact ih h more (Nat.le_of_succ_le_succ hmore)

/-! ### Up the parents -/

variable {parent : List (V × V)}

theorem lookup_of_mem_keys {v : V} (h : v ∈ parent.map Prod.fst) :
    ∃ p, parent.lookup v = some p ∧ (v, p) ∈ parent := by
  induction parent with
  | nil => cases h
  | cons x parent ih =>
    obtain ⟨w, p⟩ := x
    rw [lookup_cons]
    by_cases hvw : v = w
    · subst hvw
      exact ⟨p, by rw [beq_self_eq_true], mem_cons_self⟩
    · obtain ⟨p', hp', hmem⟩ := ih ((mem_cons.mp h).resolve_left hvw)
      exact ⟨p', by rw [beq_false_of_ne hvw]; exact hp', mem_cons_of_mem _ hmem⟩

/-- **Where the start has a parent itself, the way up has no end.** -/
theorem climb_loops (h : Traced src dst edges start parent) (hstart : start ∈ parent.map Prod.fst)
    (fuel : Nat) : ∀ {node : V} {route : List V}, node ∈ parent.map Prod.fst →
    climb parent fuel node route = none := by
  induction fuel with
  | zero => exact fun _ => rfl
  | succ fuel ih =>
    intro node route hnode
    obtain ⟨prev, hlookup, hmem⟩ := lookup_of_mem_keys hnode
    rw [climb, hlookup]
    refine ih ?_
    rcases h.parents _ hmem with heq | hkeys
    · obtain rfl : prev = start := heq
      exact hstart
    · exact hkeys

/-- **Otherwise it leads back to the start along edges.** -/
theorem climb_route {full : List (V × V)} (h : Traced src dst edges start parent)
    (hfull : ∀ v ∈ parent.map Prod.fst, full.lookup v = parent.lookup v)
    (hstart : full.lookup start = none) : ∀ {node : V},
    node = start ∨ node ∈ parent.map Prod.fst → ∃ ups : List V,
      (node :: ups).getLast? = some start ∧
      (node :: ups).IsChain (fun v p => Step src dst edges p v) ∧
      ∀ fuel route, parent.length < fuel →
        climb full fuel node route = some (route ++ ups).reverse := by
  induction h with
  | nil =>
    intro node hnode
    obtain rfl := hnode.resolve_right not_mem_nil
    refine ⟨[], rfl, .singleton _, fun fuel route hfuel => ?_⟩
    obtain ⟨fuel, rfl⟩ := Nat.exists_eq_add_of_lt hfuel
    rw [climb, hstart, append_nil]
  | @push parent v p htraced hp hstep hfresh ih =>
    have hkeys : (parent ++ [(v, p)]).map Prod.fst = parent.map Prod.fst ++ [v] := by
      rw [map_append]
      rfl
    have hold : ∀ w ∈ parent.map Prod.fst, full.lookup w = parent.lookup w := by
      intro w hw
      obtain ⟨q, hq, -⟩ := lookup_of_mem_keys hw
      rw [hfull w (hkeys ▸ mem_append_left _ hw), lookup_append, hq]
      rfl
    have hup : ∀ {node : V}, node = start ∨ node ∈ parent.map Prod.fst → _ := fun hnode =>
      ih hold hnode
    intro node hnode
    by_cases hnew : node = v
    · subst hnew
      obtain ⟨ups, hlast, hchain, hclimb⟩ := hup hp
      have hlookup : full.lookup node = some p := by
        have hnone : parent.lookup node = none := by
          rw [lookup_eq_none_iff]
          rintro x hx
          rw [bne_iff_ne]
          rintro rfl
          exact hfresh (mem_map_of_mem hx)
        rw [hfull node (hkeys ▸ mem_append_right _ mem_cons_self), lookup_append,
          hnone, lookup_cons, beq_self_eq_true]
        rfl
      refine ⟨p :: ups, ?_, hchain.cons_cons hstep, fun fuel route hfuel => ?_⟩
      · rw [getLast?_cons_cons]
        exact hlast
      · obtain ⟨fuel, rfl⟩ := Nat.exists_eq_add_of_lt hfuel
        rw [length_append, length_singleton] at *
        rw [climb, hlookup]
        dsimp only
        rw [hclimb _ _ (by omega), append_assoc]
        rfl
    · have hnode' : node = start ∨ node ∈ parent.map Prod.fst := by
        refine hnode.imp_right (fun hmem => ?_)
        rw [hkeys] at hmem
        exact (mem_append.mp hmem).resolve_right (fun h => hnew (mem_singleton.mp h))
      obtain ⟨ups, hlast, hchain, hclimb⟩ := hup hnode'
      refine ⟨ups, hlast, hchain, fun fuel route hfuel => hclimb fuel route ?_⟩
      rw [length_append] at hfuel
      omega

end Spec

end Breadth

end Modbit.Lib
