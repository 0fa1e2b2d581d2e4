import Mathlib.Data.List.Basic

/-!
# Following a partial function

`follow` walks from one element to the next until there is none, and keeps what it has passed.  Where a
rank grows at every step and has a bound, the walk ends (`exists_leads`, `follow_eq`), passes nothing
twice (`Leads.nodup`), and only its last element has no next (`Leads.eq_of_stops`).
-/

namespace Modbit.Lib

open List

variable {α : Type*} {next : α → Option α}

/-- The loop that pushes what comes next; `none` when the fuel has run out. -/
def follow (next : α → Option α) : Nat → List α → α → Option (List α)
  | 0, _, _ => none
  | fuel + 1, chain, a =>
    match next a with
    | none => some chain
    | some b => follow next fuel (chain ++ [b]) b

/-- The walk from an element to the one that has no next. -/
inductive Leads (next : α → Option α) : α → List α → Prop
  | stop {a : α} (h : next a = none) : Leads next a [a]
  | go {a b : α} {l : List α} (h : next a = some b) (rest : Leads next b l) : Leads next a (a :: l)

variable {a : α} {l : List α}

theorem Leads.cons_tail (h : Leads next a l) : l = a :: l.tail := by
  cases h <;> rfl

theorem follow_eq (h : Leads next a l) (chain : List α) {fuel : Nat}
    (hfuel : l.length ≤ fuel) : follow next fuel chain a = some (chain ++ l.tail) := by
  induction h generalizing chain fuel with
  | stop h =>
    obtain ⟨n, rfl⟩ := Nat.exists_eq_add_of_le' hfuel
    rw [length_singleton, follow, h, tail_cons, append_nil]
  | @go a b l h rest ih =>
    obtain ⟨n, rfl⟩ := Nat.exists_eq_add_of_le' (Nat.le_trans (Nat.le_add_left 1 l.length) hfuel)
    have hn : l.length ≤ n := by
      rw [length_cons] at hfuel
      omega
    rw [follow, h]
    dsimp only
    rw [ih (chain ++ [b]) hn, append_assoc, tail_cons]
    rw [rest.cons_tail]
    rfl

section Ranked

variable {rank : α → Nat} {bound : Nat}
  (hrank : ∀ a b, next a = some b → rank a < rank b ∧ rank b ≤ bound)

include hrank

/-- **The walk ends.** -/
theorem exists_leads (a : α) : ∃ l, Leads next a l := by
  induction hn : bound - rank a using Nat.strongRecOn generalizing a with
  | ind n ih =>
    cases hnext : next a with
    | none => exact ⟨[a], .stop hnext⟩
    | some b =>
      obtain ⟨hlt, hle⟩ := hrank a b hnext
      obtain ⟨l, hl⟩ := ih (bound - rank b) (by omega) b rfl
      exact ⟨a :: l, .go hnext hl⟩

theorem Leads.le_rank {a x : α} {l : List α} (h : Leads next a l) (hx : x ∈ l) :
    x = a ∨ rank a < rank x := by
  induction h with
  | stop _ => exact .inl (mem_singleton.mp hx)
  | @go a b l h _ ih =>
    have hlt := (hrank a b h).1
    rcases mem_cons.mp hx with rfl | hx
    · exact .inl rfl
    · rcases ih hx with rfl | hgt
      · exact .inr hlt
      · exact .inr (Nat.lt_trans hlt hgt)

/-- **It passes nothing twice.** -/
theorem Leads.nodup {a : α} {l : List α} (h : Leads next a l) : l.Nodup := by
  induction h with
  | stop _ => exact nodup_cons.mpr ⟨not_mem_nil, nodup_nil⟩
  | @go a b l hab rest ih =>
    refine nodup_cons.mpr ⟨fun ha => ?_, ih⟩
    have hlt := (hrank a b hab).1
    rcases rest.le_rank hrank ha with rfl | hgt
    · exact Nat.lt_irrefl _ hlt
    · omega

end Ranked

/-- **Only the last element has no next.** -/
theorem Leads.eq_of_stops {a x y : α} (h : Leads next a l) (hx : x ∈ l) (hy : y ∈ l)
    (hxs : next x = none) (hys : next y = none) : x = y := by
  induction h with
  | stop _ => rw [mem_singleton.mp hx, mem_singleton.mp hy]
  | @go a b l hab _ ih =>
    have hnot : ∀ z, next z = none → z ∈ a :: l → z ∈ l := by
      intro z hz hmem
      rcases mem_cons.mp hmem with rfl | hmem
      · cases hab.symm.trans hz
      · exact hmem
    exact ih (hnot x hxs hx) (hnot y hys hy)

end Modbit.Lib
