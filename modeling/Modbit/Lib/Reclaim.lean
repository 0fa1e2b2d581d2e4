import Mathlib.Algebra.Ring.Int.Parity
import Mathlib.Data.List.Basic

/-!
# Greedy reclaiming

Candidates are gone through in order while the cost is over the budget, and those that
save something are taken.  `reclaim` is the list of those taken.
-/

namespace Modbit.Lib

open List

variable {α : Type*} (budget : Nat) (saving : α → Nat)

def reclaim : Nat → List α → List α
  | _, [] => []
  | cost, a :: l =>
    if cost ≤ budget then []
    else if 0 < saving a then a :: reclaim (cost - saving a) l
    else reclaim cost l

variable {budget saving}

theorem reclaim_of_le {cost : Nat} (h : cost ≤ budget) (l : List α) :
    reclaim budget saving cost l = [] := by
  cases l with
  | nil => rfl
  | cons a l => rw [reclaim, if_pos h]

theorem reclaim_sublist (l : List α) : ∀ cost, (reclaim budget saving cost l).Sublist l := by
  induction l with
  | nil => intro cost; exact List.Sublist.refl _
  | cons a l ih =>
    intro cost
    rw [reclaim]
    split_ifs with hle hpos
    · exact nil_sublist _
    · exact (ih _).cons_cons a
    · exact (ih _).cons a

variable {a : α}

theorem mem_of_mem_reclaim {l : List α} {cost : Nat}
    (h : a ∈ reclaim budget saving cost l) : a ∈ l := (reclaim_sublist l cost).subset h

theorem pos_of_mem_reclaim (l : List α) :
    ∀ cost, a ∈ reclaim budget saving cost l → 0 < saving a := by
  induction l with
  | nil => intro cost h; cases h
  | cons b l ih =>
    intro cost h
    rw [reclaim] at h
    split_ifs at h with hle hpos
    · cases h
    · rcases mem_cons.mp h with rfl | h
      · exact hpos
      · exact ih _ h
    · exact ih _ h

theorem mem_reclaim_of_lt (l : List α) (ha : a ∈ l) (hpos : 0 < saving a) : ∀ cost,
    budget + ((reclaim budget saving cost l).map saving).sum < cost →
    a ∈ reclaim budget saving cost l := by
  induction l with
  | nil => cases ha
  | cons b l ih =>
    intro cost h
    have hcost : ¬ cost ≤ budget := by omega
    rw [reclaim, if_neg hcost] at h ⊢
    split_ifs at h ⊢ with hb
    · rw [map_cons, sum_cons] at h
      rcases mem_cons.mp ha with rfl | ha
      · exact mem_cons_self
      · exact mem_cons_of_mem b (ih ha _ (by omega))
    · rcases mem_cons.mp ha with rfl | ha
      · exact absurd hpos hb
      · exact ih ha _ h

end Modbit.Lib
