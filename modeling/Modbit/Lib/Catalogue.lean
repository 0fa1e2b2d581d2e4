import Mathlib.Data.Option.Basic
import Mathlib.Tactic.SplitIfs

/-!
# Catalogues

A catalogue lists names with what is at the places they name.  Several names may name one
place.  A catalogue is `Accurate` if what it lists is there, and what is there is listed
under some name.  The three rules say how it stays so when something is put at a place,
taken away from one, or moved: what is listed under other names must not be disturbed.
-/

namespace Modbit.Lib

variable {N P D : Type*} [DecidableEq N] {place : N → P} {inside : P → Prop}
  {disk disk' : P → Option D} {listed listed' : N → Option D}

/-- What is listed is on the disk, and what is on the disk inside is listed. -/
structure Accurate (place : N → P) (inside : P → Prop) (disk : P → Option D)
    (listed : N → Option D) : Prop where
  lists : ∀ n d, listed n = some d → disk (place n) = some d
  covers : ∀ p, inside p → disk p ≠ none → ∃ n, listed n ≠ none ∧ place n = p

namespace Accurate

theorem remove (h : Accurate place inside disk listed) (n : N)
    (hlisted : ∀ m, listed' m = if m = n then none else listed m)
    (hother : ∀ m, m ≠ n → listed m ≠ none → disk' (place m) = disk (place m))
    (hnew : ∀ p, disk' p ≠ none → p ≠ place n ∧ disk' p = disk p) :
    Accurate place inside disk' listed' := by
  refine ⟨fun m e hm => ?_, fun p hin hp => ?_⟩
  · rw [hlisted] at hm
    split_ifs at hm with hmn
    rw [hother m hmn (by rw [hm]; exact Option.some_ne_none e)]
    exact h.lists m e hm
  · obtain ⟨hpn, hsame⟩ := hnew p hp
    obtain ⟨m, hm, rfl⟩ := h.covers p hin (by rw [← hsame]; exact hp)
    refine ⟨m, ?_, rfl⟩
    rw [hlisted, if_neg (fun hmn => hpn (by rw [hmn]))]
    exact hm

theorem move (h : Accurate place inside disk listed) (n n' : N) (d : D)
    (hlisted : ∀ m, listed' m = if m = n' then some d else if m = n then none else listed m)
    (hplace : disk' (place n') = some d)
    (hother : ∀ m, m ≠ n → m ≠ n' → listed m ≠ none → disk' (place m) = disk (place m))
    (hnew : ∀ p, p ≠ place n' → disk' p ≠ none → p ≠ place n ∧ disk' p = disk p) :
    Accurate place inside disk' listed' := by
  refine ⟨fun m e hm => ?_, fun p hin hp => ?_⟩
  · rw [hlisted] at hm
    split_ifs at hm with hmn' hmn
    · rw [hmn', hplace]
      exact hm
    · rw [hother m hmn hmn' (by rw [hm]; exact Option.some_ne_none e)]
      exact h.lists m e hm
  · by_cases hpn' : p = place n'
    · refine ⟨n', ?_, hpn'.symm⟩
      rw [hlisted, if_pos rfl]
      exact Option.some_ne_none d
    · obtain ⟨hpn, hsame⟩ := hnew p hpn' hp
      obtain ⟨m, hm, rfl⟩ := h.covers p hin (by rw [← hsame]; exact hp)
      refine ⟨m, ?_, rfl⟩
      rw [hlisted, if_neg (fun hmn => hpn' (by rw [hmn])), if_neg (fun hmn => hpn (by rw [hmn]))]
      exact hm

theorem put (h : Accurate place inside disk listed) (n : N) (d : D)
    (hlisted : ∀ m, listed' m = if m = n then some d else listed m)
    (hplace : disk' (place n) = some d)
    (hother : ∀ m, m ≠ n → listed m ≠ none → disk' (place m) = disk (place m))
    (hnew : ∀ p, p ≠ place n → disk' p ≠ none → disk' p = disk p) :
    Accurate place inside disk' listed' := by
  refine h.move n n d (fun m => ?_) hplace (fun m hm _ => hother m hm)
    (fun p hpn hp => ⟨hpn, hnew p hpn hp⟩)
  rw [hlisted]
  split_ifs
  · rfl
  · rfl

end Accurate

end Modbit.Lib
