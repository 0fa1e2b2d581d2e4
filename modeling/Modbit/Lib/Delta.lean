import Mathlib.Data.List.Basic

/-!
# Two lists and what separates them

A delta is what two lists have in common, cut where they differ: every change has the entries kept
before it, those only the source has and those only the target has.  `place` numbers the changes in
both lists.  Between two changes something is kept, so no two are at one place (`placed_ordered`).

`undo` takes one change back.  `undo_spec` says what that does: the source stays, in the target the
added entries give way to the removed ones, and the changes after it move by the difference.
-/

namespace Modbit.Lib

open List

variable {α : Type*}

structure Change (α : Type*) where
  kept : List α
  removed : List α
  added : List α

namespace Change

def source (c : Change α) : List α := c.kept ++ c.removed

def target (c : Change α) : List α := c.kept ++ c.added

def behind (lines : List α) (c : Change α) : Change α := { c with kept := lines ++ c.kept }

theorem source_behind (lines : List α) (c : Change α) :
    (c.behind lines).source = lines ++ c.source := append_assoc _ _ _

theorem target_behind (lines : List α) (c : Change α) :
    (c.behind lines).target = lines ++ c.target := append_assoc _ _ _

def Real (c : Change α) : Prop := c.removed ≠ [] ∨ c.added ≠ []

instance [DecidableEq α] (c : Change α) : Decidable c.Real := inferInstanceAs (Decidable (_ ∨ _))

end Change

/-- A change and how many entries each list has before it. -/
structure Placed (α : Type*) where
  source : Nat
  target : Nat
  removed : List α
  added : List α
deriving DecidableEq

/-- The change when so many entries before it come instead of others. -/
def Placed.moved (gone put : Nat) (p : Placed α) : Placed α :=
  { p with target := p.target - gone + put }

structure Delta (α : Type*) where
  changes : List (Change α)
  rest : List α
  real : ∀ c ∈ changes, c.Real
  apart : ∀ c ∈ changes.tail, c.kept ≠ []

/-! ### Changes in their places -/

def sources (cs : List (Change α)) : List α := cs.flatMap Change.source

def targets (cs : List (Change α)) : List α := cs.flatMap Change.target

/-- The changes, after so many entries of each list. -/
def place (s t : Nat) : List (Change α) → List (Placed α)
  | [] => []
  | c :: cs =>
    ⟨s + c.kept.length, t + c.kept.length, c.removed, c.added⟩
      :: place (s + c.source.length) (t + c.target.length) cs

def absorb (lines rest : List α) : List (Change α) → List (Change α) × List α
  | [] => ([], lines ++ rest)
  | c :: cs => (c.behind lines :: cs, rest)

/-- The change before which the target has so many entries is taken back; `t` are behind already. -/
def undoFrom (place : Nat) (rest : List α) : Nat → List (Change α) → List (Change α) × List α
  | _, [] => ([], rest)
  | t, c :: cs =>
    if t + c.kept.length = place then absorb c.source rest cs
    else
      let undone := undoFrom place rest (t + c.target.length) cs
      (c :: undone.1, undone.2)

section Places

variable {s t : Nat} {lines rest : List α} {c : Change α} {cs ds : List (Change α)}
  {p q : Placed α}

theorem sources_cons (c : Change α) (cs : List (Change α)) :
    sources (c :: cs) = c.source ++ sources cs := flatMap_cons

theorem targets_cons (c : Change α) (cs : List (Change α)) :
    targets (c :: cs) = c.target ++ targets cs := flatMap_cons

theorem sources_append (cs ds : List (Change α)) : sources (cs ++ ds) = sources cs ++ sources ds :=
  flatMap_append

theorem targets_append (cs ds : List (Change α)) : targets (cs ++ ds) = targets cs ++ targets ds :=
  flatMap_append

theorem place_append (s t : Nat) (cs ds : List (Change α)) : place s t (cs ++ ds)
    = place s t cs ++ place (s + (sources cs).length) (t + (targets cs).length) ds := by
  induction cs generalizing s t with
  | nil => rfl
  | cons c cs ih =>
    rw [cons_append, place, ih, place, cons_append, sources_cons, targets_cons,
      length_append, length_append]
    simp only [Nat.add_assoc]

theorem place_absorb (s t : Nat) (lines rest : List α) (cs : List (Change α)) :
    place s t (absorb lines rest cs).1 = place (s + lines.length) (t + lines.length) cs := by
  cases cs with
  | nil => rfl
  | cons c cs =>
    have hkept : (c.behind lines).kept.length = lines.length + c.kept.length :=
      length_append
    rw [absorb, place, place, hkept, c.source_behind, c.target_behind, length_append, length_append]
    simp only [Nat.add_assoc]
    rfl

theorem sources_absorb (lines rest : List α) (cs : List (Change α)) :
    sources (absorb lines rest cs).1 ++ (absorb lines rest cs).2
      = lines ++ (sources cs ++ rest) := by
  cases cs with
  | nil => rfl
  | cons c cs =>
    rw [absorb, sources_cons, sources_cons, c.source_behind]
    simp only [append_assoc]

theorem targets_absorb (lines rest : List α) (cs : List (Change α)) :
    targets (absorb lines rest cs).1 ++ (absorb lines rest cs).2
      = lines ++ (targets cs ++ rest) := by
  cases cs with
  | nil => rfl
  | cons c cs =>
    rw [absorb, targets_cons, targets_cons, c.target_behind]
    simp only [append_assoc]

theorem le_of_mem_place (hp : p ∈ place s t cs) : s ≤ p.source ∧ t ≤ p.target := by
  induction cs generalizing s t with
  | nil => cases hp
  | cons c cs ih =>
    rcases mem_cons.mp hp with rfl | hp
    · exact ⟨Nat.le_add_right _ _, Nat.le_add_right _ _⟩
    · obtain ⟨hs, ht⟩ := ih hp
      exact ⟨by omega, by omega⟩

theorem place_moved (s t gone put : Nat) (cs : List (Change α)) :
    place s (t + put) cs = (place s (t + gone) cs).map (Placed.moved gone put) := by
  induction cs generalizing s t with
  | nil => rfl
  | cons c cs ih =>
    have hstep := ih (s + c.source.length) (t + c.target.length)
    have hput : t + put + c.target.length = t + c.target.length + put := by omega
    have hgone : t + gone + c.target.length = t + c.target.length + gone := by omega
    have hfirst : t + gone + c.kept.length - gone + put = t + put + c.kept.length := by omega
    rw [place, place, map_cons, hput, hgone, hstep, Placed.moved]
    simp only [hfirst]

theorem exists_change {before after : List (Placed α)} (h : place s t cs = before ++ p :: after) :
    ∃ cs₁ c cs₂, cs = cs₁ ++ c :: cs₂ ∧ place s t cs₁ = before ∧
      p = ⟨s + (sources cs₁).length + c.kept.length, t + (targets cs₁).length + c.kept.length,
        c.removed, c.added⟩ ∧
      after = place (s + (sources cs₁).length + c.source.length)
        (t + (targets cs₁).length + c.target.length) cs₂ := by
  induction before generalizing s t cs with
  | nil =>
    cases cs with
    | nil => cases h
    | cons c cs =>
      obtain ⟨hp, hafter⟩ := List.cons.inj h
      exact ⟨[], c, cs, rfl, rfl, hp.symm, hafter.symm⟩
  | cons b before ih =>
    cases cs with
    | nil => cases h
    | cons d cs =>
      obtain ⟨hb, hrest⟩ := List.cons.inj h
      obtain ⟨cs₁, c, cs₂, rfl, hplace, rfl, rfl⟩ := ih hrest
      refine ⟨d :: cs₁, c, cs₂, rfl, ?_, ?_, ?_⟩
      · rw [place, hb, hplace]
      · simp only [sources_cons, targets_cons, length_append, Nat.add_assoc]
      · simp only [sources_cons, targets_cons, length_append, Nat.add_assoc]

/-- The first change ends, in both lists, before the second one starts. -/
def Placed.Before (p q : Placed α) : Prop :=
  p.source + p.removed.length < q.source ∧ p.target + p.added.length < q.target

theorem place_ordered (h : ∀ c ∈ cs.tail, c.kept ≠ []) : (place s t cs).Pairwise Placed.Before := by
  induction cs generalizing s t with
  | nil => exact List.Pairwise.nil
  | cons c cs ih =>
    have hcs : ∀ d ∈ cs.tail, d.kept ≠ [] := fun d hd => h d (mem_of_mem_tail hd)
    refine List.Pairwise.cons (fun q hq => ?_) (ih hcs)
    -- the next change keeps something before it, and the others are behind that one
    cases cs with
    | nil => cases hq
    | cons d cs =>
      have hd : 0 < d.kept.length := length_pos_of_ne_nil (h d mem_cons_self)
      have hsource : c.source.length = c.kept.length + c.removed.length := length_append
      have htarget : c.target.length = c.kept.length + c.added.length := length_append
      have hsource' : d.source.length = d.kept.length + d.removed.length := length_append
      have htarget' : d.target.length = d.kept.length + d.added.length := length_append
      rcases mem_cons.mp hq with rfl | hq
      · exact ⟨show s + c.kept.length + c.removed.length < s + c.source.length + d.kept.length by omega,
          show t + c.kept.length + c.added.length < t + c.target.length + d.kept.length by omega⟩
      · obtain ⟨hs, ht⟩ := le_of_mem_place hq
        exact ⟨show s + c.kept.length + c.removed.length < q.source by omega,
          show t + c.kept.length + c.added.length < q.target by omega⟩

/-! ### Taking a change back -/

theorem undoFrom_split (rest : List α) (t : Nat) (hc : cs ≠ [] → c.kept ≠ []) :
    undoFrom (t + (targets cs).length + c.kept.length) rest t (cs ++ c :: ds)
      = (cs ++ (absorb c.source rest ds).1, (absorb c.source rest ds).2) := by
  induction cs generalizing t with
  | nil => exact if_pos rfl
  | cons b cs ih =>
    have hkept : 0 < c.kept.length := length_pos_of_ne_nil (hc (cons_ne_nil _ _))
    have hlength : (targets (b :: cs)).length = b.target.length + (targets cs).length :=
      length_append
    have hb : b.target.length = b.kept.length + b.added.length := length_append
    have hplace : t + (targets (b :: cs)).length + c.kept.length
        = t + b.target.length + (targets cs).length + c.kept.length := by omega
    rw [cons_append, undoFrom, if_neg (by omega), hplace,
      ih (t + b.target.length) (fun _ => hc (cons_ne_nil _ _))]
    rfl

theorem mem_undoFrom {place : Nat} (hc : c ∈ (undoFrom place rest t cs).1) :
    ∃ d ∈ cs, ∃ lines, c = d.behind lines := by
  induction cs generalizing t with
  | nil => cases hc
  | cons d cs ih =>
    rw [undoFrom] at hc
    split_ifs at hc with hplace
    · cases cs with
      | nil => cases hc
      | cons e cs =>
        rcases mem_cons.mp hc with rfl | hc
        · exact ⟨e, mem_cons_of_mem d mem_cons_self, d.source, rfl⟩
        · exact ⟨c, mem_cons_of_mem d (mem_cons_of_mem e hc), [], rfl⟩
    · rcases mem_cons.mp hc with rfl | hc
      · exact ⟨c, mem_cons_self, [], rfl⟩
      · obtain ⟨e, he, lines, rfl⟩ := ih hc
        exact ⟨e, mem_cons_of_mem d he, lines, rfl⟩

theorem mem_tail_undoFrom {place : Nat} (hc : c ∈ (undoFrom place rest t cs).1.tail) :
    ∃ d ∈ cs.tail, ∃ lines, c = d.behind lines := by
  cases cs with
  | nil => cases hc
  | cons d cs =>
    rw [undoFrom] at hc
    split_ifs at hc with hplace
    · cases cs with
      | nil => cases hc
      | cons e cs => exact ⟨c, mem_cons_of_mem e hc, [], rfl⟩
    · exact mem_undoFrom hc

end Places

namespace Delta

variable (d : Delta α)

def source : List α := sources d.changes ++ d.rest

def target : List α := targets d.changes ++ d.rest

def placed : List (Placed α) := place 0 0 d.changes

theorem placed_ordered : d.placed.Pairwise Placed.Before := place_ordered d.apart

/-- The change that is placed there in the target is taken back. -/
def undo (place : Nat) : Delta α where
  changes := (undoFrom place d.rest 0 d.changes).1
  rest := (undoFrom place d.rest 0 d.changes).2
  real := by
    intro c hc
    obtain ⟨e, he, lines, rfl⟩ := mem_undoFrom hc
    exact d.real e he
  apart := by
    intro c hc
    obtain ⟨e, he, lines, rfl⟩ := mem_tail_undoFrom hc
    exact List.append_ne_nil_of_right_ne_nil _ (d.apart e he)

/-- What taking a change back makes of a delta. -/
structure Undone (before after : List (Placed α)) (p : Placed α) (d' : Delta α) : Prop where
  placed : d'.placed = before ++ after.map (Placed.moved p.added.length p.removed.length)
  source : d'.source = d.source
  target : ∃ l l', l.length = p.target ∧ d.target = l ++ p.added ++ l' ∧
    d'.target = l ++ p.removed ++ l'

variable {d}

/-- **Taking a change back.** -/
theorem undo_spec {before after : List (Placed α)} {p : Placed α}
    (h : d.placed = before ++ p :: after) : d.Undone before after p (d.undo p.target) := by
  obtain ⟨cs, c, ds, hchanges, rfl, rfl, rfl⟩ := exists_change h
  have hkept : cs ≠ [] → c.kept ≠ [] := by
    intro hne
    refine d.apart c ?_
    rw [hchanges, tail_append_of_ne_nil hne]
    exact mem_append_right _ mem_cons_self
  have hundone : undoFrom (0 + (targets cs).length + c.kept.length) d.rest 0 d.changes
      = (cs ++ (absorb c.source d.rest ds).1, (absorb c.source d.rest ds).2) := by
    rw [hchanges]
    exact undoFrom_split d.rest 0 hkept
  have hundo : (d.undo (0 + (targets cs).length + c.kept.length)).changes
      = cs ++ (absorb c.source d.rest ds).1 := congrArg Prod.fst hundone
  have hrest : (d.undo (0 + (targets cs).length + c.kept.length)).rest
      = (absorb c.source d.rest ds).2 := by
    have hsnd := congrArg Prod.snd hundone
    exact hsnd
  have hsource : c.source.length = c.kept.length + c.removed.length := length_append
  have htarget : c.target.length = c.kept.length + c.added.length := length_append
  refine ⟨?_, ?_, targets cs ++ c.kept, targets ds ++ d.rest, ?_, ?_, ?_⟩
  · -- the changes after it are behind the source of the change now
    have hmoved := place_moved ((sources cs).length + c.source.length)
      ((targets cs).length + c.kept.length) c.added.length c.removed.length ds
    rw [Delta.placed, hundo, place_append, place_absorb]
    simp only [Nat.zero_add]
    rw [htarget, ← Nat.add_assoc, ← hmoved, hsource]
    simp only [Nat.add_assoc]
  · rw [Delta.source, Delta.source, hundo, hrest, hchanges, sources_append, append_assoc,
      sources_absorb, sources_append, sources_cons]
    simp only [append_assoc]
  · simp only [length_append, Nat.zero_add]
  · rw [Delta.target, hchanges, targets_append, targets_cons, Change.target]
    simp only [append_assoc]
  · rw [Delta.target, hundo, hrest, targets_append, append_assoc, targets_absorb, Change.source]
    simp only [append_assoc]

end Delta

end Modbit.Lib
