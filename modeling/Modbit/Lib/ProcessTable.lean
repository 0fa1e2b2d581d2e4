import Modbit.Lib.Turns

/-!
# A process table

Processes in the order they were started, each with its number and an owner.  A number belongs to a
process until the process has been reaped, and may be given to another one after that, so a number
says which process is meant only as long as that process is there (`byPid_eq`).
-/

namespace Modbit.Lib

open List

inductive Life where
  | running
  | ended (code : Int)
  | reaped (code : Int)
  deriving DecidableEq

def Life.present : Life → Bool
  | .reaped _ => false
  | _ => true

structure Process (α : Type) where
  pid : Nat
  owner : α
  life : Life
  deriving DecidableEq

namespace ProcessTable

variable {α : Type}

def byPid (t : List (Process α)) (pid : Nat) : Option Nat :=
  t.findIdx? (fun p => p.life.present && p.pid = pid)

def setLife (t : List (Process α)) (i : Nat) (life : Life) : List (Process α) :=
  t.modify i (fun p => { p with life := life })

/-- Processes that are there have different numbers. -/
def Distinct (t : List (Process α)) : Prop :=
  ∀ (i j : Nat) (p q : Process α), t[i]? = some p → t[j]? = some q →
    p.life.present → q.life.present → p.pid = q.pid → i = j

variable {t : List (Process α)} {i j pid : Nat} {p q : Process α} {life : Life}

theorem byPid_some (h : byPid t pid = some i) :
    ∃ p, t[i]? = some p ∧ p.life.present ∧ p.pid = pid := by
  obtain ⟨hi, hfound, -⟩ := findIdx?_eq_some_iff_getElem.mp h
  rw [Bool.and_eq_true] at hfound
  exact ⟨t[i], getElem?_eq_getElem hi, hfound.1, of_decide_eq_true hfound.2⟩

theorem byPid_none (h : byPid t pid = none) (hi : t[i]? = some p) (hp : p.life.present) :
    p.pid ≠ pid := by
  intro hpid
  have := findIdx?_eq_none_iff.mp h p (mem_of_getElem? hi)
  rw [hp, hpid] at this
  simp at this

/-- **A number leads to the process it belongs to.** -/
theorem byPid_eq (h : Distinct t) (hi : t[i]? = some p) (hp : p.life.present) :
    byPid t p.pid = some i := by
  cases hfound : byPid t p.pid with
  | none => exact absurd rfl (byPid_none hfound hi hp)
  | some j =>
    obtain ⟨q, hj, hq, hpid⟩ := byPid_some hfound
    rw [h j i q p hj hi hq hp hpid]

theorem getElem?_setLife (t : List (Process α)) (i j : Nat) (life : Life) :
    (setLife t i life)[j]? = if i = j then t[j]?.map (fun p => { p with life := life }) else t[j]? := by
  rw [setLife, getElem?_modify]
  split_ifs
  · rfl
  · exact Option.map_id'

theorem of_setLife (h : (setLife t i life)[j]? = some q) :
    ∃ p, t[j]? = some p ∧ q = if i = j then { p with life := life } else p := by
  rw [getElem?_setLife] at h
  split_ifs at h with hij
  · obtain ⟨p, hp, hq⟩ := Option.map_eq_some_iff.mp h
    exact ⟨p, hp, by rw [if_pos hij, hq]⟩
  · exact ⟨q, h, by rw [if_neg hij]⟩

theorem Distinct.setLife (h : Distinct t) (hi : t[i]? = some p) (hp : p.life.present) (life : Life) :
    Distinct (setLife t i life) := by
  have hpresent : ∀ {k : Nat} {q : Process α}, (ProcessTable.setLife t i life)[k]? = some q →
      q.life.present → ∃ q', t[k]? = some q' ∧ q'.life.present ∧ q.pid = q'.pid := by
    intro k q hk hq
    obtain ⟨q', hk', rfl⟩ := of_setLife hk
    split_ifs at hq ⊢ with hik
    · rw [hik, hk'] at hi
      rw [Option.some.inj hi]
      exact ⟨p, (Option.some.inj hi) ▸ hk', hp, rfl⟩
    · exact ⟨q', hk', hq, rfl⟩
  intro j k q r hj hk hq hr hpid
  obtain ⟨q', hj', hq', hqpid⟩ := hpresent hj hq
  obtain ⟨r', hk', hr', hrpid⟩ := hpresent hk hr
  exact h j k q' r' hj' hk' hq' hr' (hqpid ▸ hrpid ▸ hpid)

theorem Distinct.start (h : Distinct t) (hfree : byPid t pid = none) (owner : α) :
    Distinct (t ++ [⟨pid, owner, .running⟩]) := by
  intro i j p q hi hj hp hq hpid
  rcases getElem?_concat_cases hi with hi | ⟨hi, rfl⟩
  · rcases getElem?_concat_cases hj with hj | ⟨hj, rfl⟩
    · exact h i j p q hi hj hp hq hpid
    · exact absurd hpid (byPid_none hfree hi hp)
  · rcases getElem?_concat_cases hj with hj | ⟨hj', rfl⟩
    · exact absurd hpid.symm (byPid_none hfree hj hq)
    · exact (by assumption : i = t.length).trans hj'.symm

end ProcessTable

end Modbit.Lib
