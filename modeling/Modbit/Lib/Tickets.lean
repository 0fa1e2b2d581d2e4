import Modbit.Lib.Run
import Mathlib.Data.List.Perm.Basic
import Mathlib.Data.List.Range

/-!
# Numbers that are handed out before they are used

A counter hands out numbers, and each is used up some time later.  `Outstanding` says that
the numbers that are out are exactly those from the next one to be used up to the counter.
Handing out the next number keeps this (`Outstanding.issue`), and so does using the smallest
one, which is then the next in turn (`Outstanding.serve`).

Where things are handed out and taken back by the exchanges of a run, `Standing` are those that
were handed out and not taken back since; `standing_concat` is one more exchange.
-/

namespace Modbit.Lib

open List

/-- The numbers that are out are `lo, …, hi - 1`, each once. -/
structure Outstanding (out : List Nat) (lo hi : Nat) : Prop where
  le : lo ≤ hi
  perm : out.Perm (List.range' lo (hi - lo))

namespace Outstanding

variable {out rest : List Nat} {lo hi x : Nat}

theorem nil (n : Nat) : Outstanding [] n n := by
  refine ⟨Nat.le_refl n, ?_⟩
  rw [Nat.sub_self]
  exact List.Perm.refl _

theorem issue (h : Outstanding out lo hi) : Outstanding (out ++ [hi]) lo (hi + 1) := by
  have hle := h.le
  refine ⟨by omega, ?_⟩
  have hlen : hi + 1 - lo = (hi - lo) + 1 := by omega
  have hlast : lo + 1 * (hi - lo) = hi := by omega
  rw [hlen, range'_concat, hlast]
  exact h.perm.append_right [hi]

theorem congr {out' : List Nat} (h : Outstanding out lo hi) (hp : out'.Perm out) :
    Outstanding out' lo hi := ⟨h.le, hp.trans h.perm⟩

/-- **The smallest number that is out is the next in turn.** -/
theorem serve (h : Outstanding (x :: rest) lo hi) (hmin : ∀ y ∈ rest, x ≤ y) :
    x = lo ∧ Outstanding rest (lo + 1) hi := by
  have hlt : lo < hi := by
    have hlen := h.perm.length_eq
    rw [length_cons, length_range'] at hlen
    omega
  have hrange : List.range' lo (hi - lo) = lo :: List.range' (lo + 1) (hi - (lo + 1)) := by
    have hsucc : hi - lo = (hi - (lo + 1)) + 1 := by omega
    rw [hsucc, range'_succ]
  have hperm := h.perm
  rw [hrange] at hperm
  have hx : lo ≤ x := by
    have hmem := h.perm.subset mem_cons_self
    rw [mem_range'_1] at hmem
    exact hmem.1
  have hlo : x ≤ lo := by
    rcases mem_cons.mp (hperm.symm.subset mem_cons_self) with hself | hother
    · exact Nat.le_of_eq hself.symm
    · exact hmin lo hother
  have heq : x = lo := Nat.le_antisymm hlo hx
  rw [heq] at hperm
  exact ⟨heq, hlt, hperm.cons_inv⟩

end Outstanding

/-! ### Things that are taken back -/

variable {ε α : Type*}

def Standing (issues revokes : α → ε → Prop) (tr : List ε) (x : α) : Prop :=
  ∃ before e after, tr = before ++ e :: after ∧ issues x e ∧ ∀ e' ∈ after, ¬ revokes x e'

variable {issues revokes : α → ε → Prop} {tr : List ε} {e : ε} {x : α}

theorem exists_concat {P : ε → Prop} : (∃ y ∈ tr ++ [e], P y) ↔ (∃ y ∈ tr, P y) ∨ P e := by
  simp only [mem_append, mem_singleton, or_and_right, exists_or, exists_eq_left]

theorem Standing.issued (h : Standing issues revokes tr x) : ∃ e ∈ tr, issues x e := by
  obtain ⟨before, e, after, rfl, hissues, -⟩ := h
  exact ⟨e, mem_append_right _ mem_cons_self, hissues⟩

theorem standing_nil : ¬ Standing issues revokes [] x := by
  intro h
  obtain ⟨e, he, -⟩ := h.issued
  cases he

theorem standing_concat : Standing issues revokes (tr ++ [e]) x ↔
    issues x e ∨ (Standing issues revokes tr x ∧ ¬ revokes x e) := by
  constructor
  · rintro ⟨before, y, after, htr, hissues, hnone⟩
    rcases eq_nil_or_concat after with rfl | ⟨after, z, rfl⟩
    · obtain ⟨-, hy⟩ := append_inj' htr rfl
      rw [(List.cons.inj hy).1]
      exact .inl hissues
    · rw [concat_eq_append, ← cons_append, ← append_assoc] at htr
      rw [concat_eq_append, forall_mem_append] at hnone
      obtain ⟨rfl, hz⟩ := append_inj' htr rfl
      rw [(List.cons.inj hz).1]
      exact .inr ⟨⟨before, y, after, rfl, hissues, hnone.1⟩, hnone.2 z mem_cons_self⟩
  · rintro (hissues | ⟨⟨before, y, after, rfl, hissues, hnone⟩, hkept⟩)
    · exact ⟨tr, e, [], rfl, hissues, fun y hy => (by cases hy)⟩
    · refine ⟨before, y, after ++ [e], by simp, hissues, forall_mem_append.mpr ⟨hnone, ?_⟩⟩
      exact forall_mem_singleton.mpr hkept

def exchanges {σ ι ρ : Type*} (step : σ → ι → σ × ρ) (s : σ) (is : List ι) : List (ι × ρ) :=
  is.zip (replies step s is)

theorem exchanges_concat {σ ι ρ : Type*} {step : σ → ι → σ × ρ} (s : σ) (is : List ι) (i : ι) :
    exchanges step s (is ++ [i]) = exchanges step s is ++ [(i, (step (run step s is) i).2)] := by
  rw [exchanges, replies_concat, zip_append (replies_length _ _).symm]
  rfl

end Modbit.Lib
