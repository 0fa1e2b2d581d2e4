import Modbit.Lib.Breadth
import Modbit.Retrieval.Impact
import Mathlib.Data.List.Chain

/-!
# Routes and closures in the context graph

`structuralPath` searches the dependency edges breadth first and reads the route off the
parent map; `impactOf` searches them backwards for everything that depends on a file.
Both are loops of `Breadth.search`, and the fuel of each bounds its turns.

The search does not put the file it starts from into the parent map, so that an edge back
into it does.  If that happens before the target is found, the way up the parents goes
round for ever: `structuralPath` returns the route if and only if the first walk to the
target comes before every walk back to the start (`context_graph_right_iff`).
-/

namespace Modbit

open Lib List

namespace Retrieval

structure GraphEdge where
  fromPath : String
  toPath : String
  kind : String

structure ContextGraph where
  deps : List GraphEdge
  testMarkers : List String

namespace ContextGraph

variable (g : ContextGraph)

/-- The route to the target from the parents found, with what it has gone up so far. -/
def reconstruct (fuel : Nat) (parent : List (String × String)) (toPath : String) :
    Option (List String) :=
  Breadth.climb parent fuel toPath [toPath]

/-- `none` when the fuel runs out. -/
def structuralPath (fuel : Nat) (fromPath toPath : String) : Option (Option (List String)) :=
  if fromPath = toPath then some (some [fromPath])
  else
    match Breadth.search GraphEdge.fromPath GraphEdge.toPath g.deps (fun path => path = toPath) fuel
        ⟨[], [fromPath]⟩ with
    | none => none
    | some (.ok _) => some none
    | some (.error parent) => (reconstruct fuel parent toPath).map some

def isTestFile (path : String) : Bool :=
  g.testMarkers.any (fun marker => decide (marker.toList <:+: path.toList))

/-- The affected files in order, without the changed one. -/
def affectedFiles (affected : List (String × String)) (changedPath : String) : List String :=
  ((OrdMap.ofList (affected.map (fun e => (e.1, ())))).erase changedPath).keys

/-- The affected source files and the affected tests, `none` when the fuel runs out. -/
def impactOf (fuel : Nat) (changedPath : String) : Option (List String × List String) :=
  match Breadth.search GraphEdge.toPath GraphEdge.fromPath g.deps (fun _ => false) fuel
      ⟨[], [changedPath]⟩ with
  | some (.ok affected) =>
    let paths := affectedFiles affected changedPath
    some (paths.filter (fun path => !g.isTestFile path), paths.filter g.isTestFile)
  | _ => none

/-! ### What the two are to return -/

def Depends (a b : String) : Prop := ∃ e ∈ g.deps, e.fromPath = a ∧ e.toPath = b

structure IsRoute (fromPath toPath : String) (route : List String) : Prop where
  head : route.head? = some fromPath
  last : route.getLast? = some toPath
  chain : route.IsChain g.Depends

/-- The search ends, with a route if there is one. -/
def Routed (fromPath toPath : String) : Prop :=
  ∃ found : Option (List String),
    (∃ turns, ∀ fuel ≥ turns, g.structuralPath fuel fromPath toPath = some found) ∧
    match found with
    | some route => g.IsRoute fromPath toPath route
    | none => ¬ ∃ route, g.IsRoute fromPath toPath route

/-- The search ends with everything else that depends on the changed file, each file once. -/
def Closed (changedPath : String) : Prop :=
  ∃ source tests : List String,
    (∃ turns, ∀ fuel ≥ turns, g.impactOf fuel changedPath = some (source, tests)) ∧
    (∀ path, path ∈ source ↔ path ≠ changedPath ∧ g.isTestFile path = false ∧
      Relation.TransGen g.Depends path changedPath) ∧
    (∀ path, path ∈ tests ↔ path ≠ changedPath ∧ g.isTestFile path = true ∧
      Relation.TransGen g.Depends path changedPath) ∧
    source.Pairwise (· < ·) ∧ tests.Pairwise (· < ·)

/-- A walk along edges, told by their positions in the list. -/
abbrev Walk (fromPath : String) (edges : List Nat) (path : String) : Prop :=
  Breadth.Walk GraphEdge.fromPath GraphEdge.toPath g.deps fromPath edges path

/-- Some walk to the target, fewer edges first and then the earlier edges first, is before every
walk back to the start; or there is none to the target, or it is the start. -/
def ForwardFirst (fromPath toPath : String) : Prop :=
  fromPath = toPath ∨ (¬ ∃ p, g.Walk fromPath p toPath) ∨
    ∃ p, g.Walk fromPath p toPath ∧
      ∀ q ≠ [], g.Walk fromPath q fromPath → Breadth.Before p q

variable {g} {fromPath toPath changedPath path : String}

/-! ### Closures -/

theorem mem_affectedFiles {affected : List (String × String)} :
    path ∈ affectedFiles affected changedPath
      ↔ path ≠ changedPath ∧ path ∈ affected.map Prod.fst := by
  have hkeys : (∃ v : Unit, (OrdMap.ofList (affected.map (fun e => (e.1, ())))).find? path = some v)
      ↔ path ∈ affected.map Prod.fst := by
    rw [OrdMap.find?_ofList, ← Option.ne_none_iff_exists', ne_eq, lookup_eq_none_iff, not_forall]
    constructor
    · rintro ⟨e, he⟩
      obtain ⟨hmem, heq⟩ := Classical.not_imp.mp he
      obtain ⟨x, hx, rfl⟩ := mem_map.mp (mem_reverse.mp hmem)
      rw [bne_iff_ne, not_not] at heq
      exact mem_map.mpr ⟨x, hx, heq.symm⟩
    · intro hmem
      obtain ⟨x, hx, rfl⟩ := mem_map.mp hmem
      refine ⟨(x.1, ()), Classical.not_imp.mpr ⟨?_, by simp⟩⟩
      exact mem_reverse.mpr (mem_map_of_mem hx)
  rw [affectedFiles, OrdMap.mem_keys, ← hkeys]
  simp only [OrdMap.find?_erase]
  by_cases h : path = changedPath
  · simp [h]
  · simp [h]

theorem transGen_backwards :
    Relation.TransGen (Breadth.Step GraphEdge.toPath GraphEdge.fromPath g.deps) changedPath path
      ↔ Relation.TransGen g.Depends path changedPath := by
  have hswap : Breadth.Step GraphEdge.toPath GraphEdge.fromPath g.deps = Function.swap g.Depends := by
    funext a b
    exact propext (exists_congr (fun e => and_congr_right (fun _ => and_comm)))
  rw [hswap, Relation.transGen_swap]

/-- **`impactOf` returns the closure.** -/
theorem closed (g : ContextGraph) (changedPath : String) : g.Closed changedPath := by
  have hstands : Breadth.Stands GraphEdge.toPath GraphEdge.fromPath g.deps changedPath
      (fun _ => false) [] 0 0 0 ⟨[], [changedPath]⟩ := Breadth.stands_start
  have hspec := Breadth.search_spec (g.deps.length + 2) hstands (Nat.zero_le _) (Nat.le_refl _)
  rcases hspec with ⟨affected, hsearch, hdone⟩ | ⟨_, _, _, _, hstopped⟩
  · have hmem : ∀ path, path ∈ affectedFiles affected changedPath
        ↔ path ≠ changedPath ∧ Relation.TransGen g.Depends path changedPath := by
      intro path
      rw [mem_affectedFiles, hdone.seen, ← transGen_backwards]
      refine and_congr_right (fun _ => ⟨?_, Breadth.exists_walk⟩)
      rintro ⟨q, hne, hq⟩
      exact hq.transGen hne
    have hsorted : (affectedFiles affected changedPath).Pairwise (· < ·) :=
      pairwise_map.mpr (OrdMap.sorted _)
    refine ⟨_, _, ⟨g.deps.length + 2, fun fuel hfuel => ?_⟩, fun path => ?_, fun path => ?_,
      hsorted.filter (fun path => !g.isTestFile path), hsorted.filter g.isTestFile⟩
    · rw [impactOf, Breadth.search_more _ hsearch fuel hfuel]
    · rw [mem_filter, hmem, Bool.not_eq_true', and_assoc, and_comm (b := _ = false)]
    · rw [mem_filter, hmem, and_assoc, and_comm (b := _ = true)]
  · cases hstopped.stops

/-! ### Routes -/

theorem exists_walk_iff (hne : fromPath ≠ toPath) :
    (∃ p, g.Walk fromPath p toPath) ↔ ∃ route, g.IsRoute fromPath toPath route := by
  constructor
  · rintro ⟨p, hp⟩
    have hp' : p ≠ [] := fun h => hne (hp.eq_start h).symm
    obtain ⟨l, hchain, hlast⟩ :=
      exists_isChain_cons_of_relationReflTransGen (hp.transGen hp').to_reflTransGen
    refine ⟨fromPath :: l, rfl, ?_, hchain⟩
    rw [getLast?_eq_some_getLast (cons_ne_nil _ _), hlast]
  · rintro ⟨route, hhead, hlast, hchain⟩
    cases route with
    | nil => cases hhead
    | cons a l =>
      obtain rfl : a = fromPath := Option.some.inj hhead
      have hpath : Relation.ReflTransGen g.Depends a toPath := by
        refine relationReflTransGen_of_exists_isChain_cons l hchain ?_
        rw [getLast?_eq_some_getLast (cons_ne_nil _ _)] at hlast
        exact Option.some.inj hlast
      rcases Relation.reflTransGen_iff_eq_or_transGen.mp hpath with heq | hpath
      · exact absurd heq.symm hne
      · obtain ⟨p, -, hp⟩ := Breadth.exists_walk hpath
        exact ⟨p, hp⟩

theorem structuralPath_of_ne (hne : fromPath ≠ toPath) (fuel : Nat) :
    g.structuralPath fuel fromPath toPath
      = match Breadth.search GraphEdge.fromPath GraphEdge.toPath g.deps
            (fun path => path = toPath) fuel ⟨[], [fromPath]⟩ with
        | none => none
        | some (.ok _) => some none
        | some (.error parent) => (reconstruct fuel parent toPath).map some :=
  if_neg hne

theorem reconstruct_route {parent : List (String × String)}
    (htraced : Breadth.Traced GraphEdge.fromPath GraphEdge.toPath g.deps fromPath parent)
    (hfound : toPath ∈ parent.map Prod.fst) (hstart : fromPath ∉ parent.map Prod.fst) :
    ∃ route, g.IsRoute fromPath toPath route ∧
      ∀ fuel > parent.length, reconstruct fuel parent toPath = some route := by
  have hnone : parent.lookup fromPath = none := by
    rw [lookup_eq_none_iff]
    intro x hx
    rw [bne_iff_ne]
    rintro rfl
    exact hstart (mem_map_of_mem hx)
  obtain ⟨ups, hlast, hchain, hclimb⟩ :=
    Breadth.climb_route htraced (fun _ _ => rfl) hnone (.inr hfound)
  refine ⟨(toPath :: ups).reverse, ⟨?_, ?_, ?_⟩, fun fuel hfuel => hclimb fuel [toPath] hfuel⟩
  · rw [head?_reverse]
    exact hlast
  · rw [getLast?_reverse]
    rfl
  · rw [isChain_reverse]
    exact hchain

/-- **A search that stops returns a route if and only if the target comes first.** -/
theorem routed_iff_of_stopped {parent : List (String × String)} {first : List Nat} {least : Nat}
    (hne : fromPath ≠ toPath)
    (hsearch : ∀ fuel ≥ least, Breadth.search GraphEdge.fromPath GraphEdge.toPath g.deps
      (fun path => path = toPath) fuel ⟨[], [fromPath]⟩ = some (.error parent))
    (hstopped : Breadth.Stopped GraphEdge.fromPath GraphEdge.toPath g.deps fromPath
      (fun path => path = toPath) parent toPath first) :
    g.Routed fromPath toPath ↔ g.ForwardFirst fromPath toPath := by
  have hleast : ∀ p, g.Walk fromPath p toPath → Breadth.AtMost first p := fun p hp =>
    hstopped.least toPath p (decide_eq_true rfl) (fun h => hne (hp.eq_start h).symm) hp
  have hback := hstopped.seen fromPath hne
  by_cases hstart : fromPath ∈ parent.map Prod.fst
  · refine iff_of_false ?_ ?_
    · rintro ⟨found, ⟨turns, hturns⟩, -⟩
      have hfuel := hturns (max turns least) (Nat.le_max_left _ _)
      rw [structuralPath_of_ne hne, hsearch _ (Nat.le_max_right _ _)] at hfuel
      dsimp only at hfuel
      rw [reconstruct, Breadth.climb_loops hstopped.traced hstart _ hstopped.found] at hfuel
      cases hfuel
    · obtain ⟨q, hq, hwalk, hbefore⟩ := hback.mp hstart
      rintro (heq | hnone | ⟨p, hp, hfirst⟩)
      · exact hne heq
      · exact hnone ⟨first, hstopped.walk⟩
      · exact (hleast p hp).not_before ((hfirst q hq hwalk).trans hbefore)
  · refine iff_of_true ?_ (.inr (.inr ⟨first, hstopped.walk, fun q hq hwalk => ?_⟩))
    · obtain ⟨route, hroute, hclimb⟩ := reconstruct_route hstopped.traced hstopped.found hstart
      refine ⟨some route, ⟨max least (parent.length + 1), fun fuel hfuel => ?_⟩, hroute⟩
      rw [structuralPath_of_ne hne, hsearch fuel (Nat.le_trans (Nat.le_max_left _ _) hfuel)]
      dsimp only
      rw [hclimb fuel (Nat.le_trans (Nat.le_max_right _ _) hfuel)]
      rfl
    · rcases Breadth.before_trichotomy first q with hlt | heq | hlt
      · exact hlt
      · -- walks of the same edges end in the same file
        have hend := hstopped.walk.end_eq
        rw [heq, ← hwalk.end_eq] at hend
        exact absurd hend.symm hne
      · exact absurd (hback.mpr ⟨q, hq, hwalk, hlt⟩) hstart

theorem routed_iff (g : ContextGraph) (fromPath toPath : String) :
    g.Routed fromPath toPath ↔ g.ForwardFirst fromPath toPath := by
  by_cases hne : fromPath = toPath
  · subst hne
    refine iff_of_true ⟨some [fromPath], ⟨0, fun fuel _ => if_pos rfl⟩, rfl, rfl, ?_⟩ (.inl rfl)
    exact .singleton _
  have hstands : Breadth.Stands GraphEdge.fromPath GraphEdge.toPath g.deps fromPath
      (fun path => path = toPath) [] 0 0 0 ⟨[], [fromPath]⟩ := Breadth.stands_start
  have hspec := Breadth.search_spec (g.deps.length + 2) hstands (Nat.zero_le _) (Nat.le_refl _)
  rcases hspec with ⟨parent, hsearch, hdone⟩ | ⟨parent, target, first, hsearch, hstopped⟩
  · have hnone : ¬ ∃ p, g.Walk fromPath p toPath := by
      rintro ⟨p, hp⟩
      have hseen := (hdone.seen toPath).mpr ⟨p, fun h => hne (hp.eq_start h).symm, hp⟩
      have hcalm := hdone.calm toPath hseen
      rw [decide_eq_false_iff_not] at hcalm
      exact hcalm rfl
    refine iff_of_true ⟨none, ⟨g.deps.length + 2, fun fuel hfuel => ?_⟩, ?_⟩ (.inr (.inl hnone))
    · rw [structuralPath_of_ne hne, Breadth.search_more _ hsearch fuel hfuel]
    · exact fun hroute => hnone ((exists_walk_iff hne).mpr hroute)
  · obtain rfl : target = toPath := of_decide_eq_true hstopped.stops
    exact routed_iff_of_stopped hne (Breadth.search_more _ hsearch) hstopped

/-- **The searches return what they should, and the route if the target comes first.**  `impact`
returns the files within reach with their hops, `impactOf` the whole closure; `structuralPath` ends
with a route, or with none where there is none, if and only if the first walk to the target is
before every walk back to the start. -/
theorem context_graph_right_iff (g : ContextGraph) (fromPath toPath : String) :
    ((∀ (d : DependencyIndex) (path : String) (depth : Nat), 1 ≤ depth →
        DependencyIndex.Impacted d path depth (d.impact path depth)) ∧
      (∀ changedPath, g.Closed changedPath) ∧ g.Routed fromPath toPath)
      ↔ g.ForwardFirst fromPath toPath := by
  rw [← routed_iff]
  refine ⟨fun h => h.2.2, fun h => ⟨fun d path depth hdepth => ?_, g.closed, h⟩⟩
  have hspec := DependencyIndex.impact_spec d path depth
  rwa [Nat.max_eq_left hdepth] at hspec

/-- Two files that depend on each other, one of which depends on a third. -/
def mutualGraph : ContextGraph where
  deps := [⟨"a", "b", "import"⟩, ⟨"b", "a", "import"⟩, ⟨"b", "c", "import"⟩]
  testMarkers := ["tests/", "_test.", ".test."]

theorem mutualGraph_search : Breadth.search GraphEdge.fromPath GraphEdge.toPath mutualGraph.deps
    (fun path => path = "c") 3 ⟨[], ["a"]⟩ = some (.error [("b", "a"), ("a", "b"), ("c", "b")]) := by
  rfl

theorem mutualGraph_traced : Breadth.Traced GraphEdge.fromPath GraphEdge.toPath mutualGraph.deps "a"
    [("b", "a"), ("a", "b"), ("c", "b")] := by
  have hb : Breadth.Traced GraphEdge.fromPath GraphEdge.toPath mutualGraph.deps "a" ([] ++ [("b", "a")]) :=
    .push .nil (.inl rfl) ⟨_, .head _, rfl, rfl⟩ (by decide)
  have ha := hb.push (v := "a") (p := "b") (.inr (by decide)) ⟨_, .tail _ (.head _), rfl, rfl⟩
    (by decide)
  exact ha.push (v := "c") (p := "b") (.inr (by decide)) ⟨_, .tail _ (.tail _ (.head _)), rfl, rfl⟩
    (by decide)

/-- There is a route, and the search for it does not end. -/
theorem structuralPath_hangs :
    mutualGraph.IsRoute "a" "c" ["a", "b", "c"] ∧
    (∀ fuel, mutualGraph.structuralPath fuel "a" "c" = none) ∧
    ¬ mutualGraph.Routed "a" "c" := by
  have hnone : ∀ fuel, mutualGraph.structuralPath fuel "a" "c" = none := by
    intro fuel
    rw [structuralPath_of_ne (by decide)]
    rcases Nat.lt_or_ge fuel 3 with hlt | hge
    · match fuel, hlt with
      | 0, _ => rfl
      | 1, _ => rfl
      | 2, _ => rfl
    · rw [Breadth.search_more 3 mutualGraph_search fuel hge]
      dsimp only
      rw [reconstruct, Breadth.climb_loops mutualGraph_traced (by decide) fuel (by decide)]
      rfl
  refine ⟨⟨rfl, rfl, ?_⟩, hnone, ?_⟩
  · refine .cons_cons ⟨_, .head _, rfl, rfl⟩ (.cons_cons ⟨_, .tail _ (.tail _ (.head _)), rfl, rfl⟩ ?_)
    exact .singleton _
  · rintro ⟨found, ⟨turns, hturns⟩, -⟩
    have hfound := hturns turns (Nat.le_refl turns)
    rw [hnone] at hfound
    cases hfound

end ContextGraph

end Retrieval

end Modbit
