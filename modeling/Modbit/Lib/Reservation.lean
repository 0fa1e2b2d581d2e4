import Mathlib.Data.List.Count

/-!
# Reservations

A number of things exist, and clients hold reservations for more.  `Within` says that the two
together stay within a bound, so that a client may always use its reservation.  A client may
reserve where nothing is reserved and the bound is not reached (`Within.reserve`), and using a
reservation adds one thing at most (`Within.use`); any other step lets both numbers fall
(`Within.keep`).
-/

namespace Modbit.Lib

open List

variable {α : Type*}

/-- What exists and what is reserved stay within the bound. -/
def Within (reserves : α → Bool) (bound existing : Nat) (clients : List α) : Prop :=
  existing + clients.countP reserves ≤ bound

namespace Within

variable {reserves : α → Bool} {bound existing existing' i : Nat} {clients : List α} {c c' : α}

theorem nil (h : existing ≤ bound) : Within reserves bound existing [] := h

theorem le (h : Within reserves bound existing clients) : existing ≤ bound :=
  Nat.le_trans (Nat.le_add_right _ _) h

theorem congr (h : Within reserves bound existing clients) (hle : existing' ≤ existing) :
    Within reserves bound existing' clients := Nat.le_trans (Nat.add_le_add_right hle _) h

theorem enter (h : Within reserves bound existing clients) (hc : reserves c = false) :
    Within reserves bound existing (clients ++ [c]) := by
  have hnone : [c].countP reserves = 0 := by
    rw [countP_eq_zero]
    intro a ha
    rw [mem_singleton.mp ha, hc]
    exact Bool.false_ne_true
  rw [Within, countP_append, hnone]
  exact h

theorem countP_set_eq (hi : clients[i]? = some c) (reserves : α → Bool) (c' : α) :
    (clients.set i c').countP reserves + (if reserves c then 1 else 0)
      = clients.countP reserves + (if reserves c' then 1 else 0) := by
  obtain ⟨hlt, heq⟩ := List.getElem?_eq_some_iff.mp hi
  have hcount := countP_set (p := reserves) (a := c') hlt
  rw [heq] at hcount
  have hpos : reserves c = true → 0 < clients.countP reserves := fun hc =>
    countP_pos_iff.mpr ⟨c, mem_of_getElem? hi, hc⟩
  cases hc : reserves c with
  | true =>
    have := hpos hc
    simp only [hc, if_true] at hcount ⊢
    omega
  | false =>
    simp only [hc, Bool.false_eq_true, if_false] at hcount ⊢
    omega

theorem keep (h : Within reserves bound existing clients) (hi : clients[i]? = some c)
    (hc : reserves c' = true → reserves c = true) (hle : existing' ≤ existing) :
    Within reserves bound existing' (clients.set i c') := by
  have hcount := countP_set_eq hi reserves c'
  rw [Within] at h ⊢
  cases hc' : reserves c' with
  | true =>
    rw [hc', hc hc'] at hcount
    omega
  | false =>
    simp only [hc', Bool.false_eq_true, if_false] at hcount
    omega

/-- **A client reserves** where nothing is reserved and the bound is not reached. -/
theorem reserve (hi : clients[i]? = some c) (hnone : ∀ a ∈ clients, reserves a = false)
    (hlt : existing < bound) : Within reserves bound existing (clients.set i c') := by
  have hcount := countP_set_eq hi reserves c'
  have hzero : clients.countP reserves = 0 :=
    countP_eq_zero.mpr (fun a ha => by rw [hnone a ha]; exact Bool.false_ne_true)
  have hone : (if reserves c' then 1 else 0) ≤ 1 := by
    split_ifs
    · exact Nat.le_refl 1
    · exact Nat.zero_le 1
  rw [Within]
  omega

/-- **A client uses its reservation.** -/
theorem use (h : Within reserves bound existing clients) (hi : clients[i]? = some c)
    (hc : reserves c = true) (hc' : reserves c' = false) (hle : existing' ≤ existing + 1) :
    Within reserves bound existing' (clients.set i c') := by
  have hcount := countP_set_eq hi reserves c'
  rw [hc, hc', if_pos rfl, if_neg Bool.false_ne_true] at hcount
  rw [Within] at h ⊢
  omega

theorem sole (h : Within reserves 1 existing clients) (hc : c ∈ clients) (hr : reserves c = true) :
    existing = 0 ∧ ∀ c' ∈ clients, reserves c' = true → c' = c := by
  have hpos : 0 < clients.countP reserves := countP_pos_iff.mpr ⟨c, hc, hr⟩
  rw [Within] at h
  refine ⟨by omega, fun c' hc' hr' => ?_⟩
  have hmem : c ∈ clients.filter reserves := mem_filter.mpr ⟨hc, hr⟩
  have hmem' : c' ∈ clients.filter reserves := mem_filter.mpr ⟨hc', hr'⟩
  have hlen : (clients.filter reserves).length = 1 := by
    rw [← countP_eq_length_filter]
    omega
  obtain ⟨only, hone⟩ := length_eq_one_iff.mp hlen
  rw [hone] at hmem hmem'
  rw [mem_singleton.mp hmem, mem_singleton.mp hmem']

end Within

end Modbit.Lib
