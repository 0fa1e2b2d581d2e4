import Mathlib.Data.List.Basic

/-!
# Replaying a log into a view

`apply : σ → ε → Except ξ σ` updates a view by one entry of a log and may refuse.
There are two ways to go on after a refusal: `lenient` keeps the old view and
carries on, `strict` stops there, with the view reached so far.

`Clean` says that every entry is accepted in the lenient view it meets.  A strict
replay of a clean log does not stop and ends in the lenient view
(`strict_of_clean`), and one that does not stop was of a clean log
(`clean_of_strict`).  `lenient_invariant` is the rule for what every accepted entry
keeps.
-/

namespace Modbit.Lib

variable {σ ε ξ : Type*} (apply : σ → ε → Except ξ σ)

/-- One entry, a refusal leaving the view as it was. -/
def applyOrKeep (s : σ) (e : ε) : σ :=
  match apply s e with
  | .ok s' => s'
  | .error _ => s

def lenient (s : σ) (log : List ε) : σ := log.foldl (applyOrKeep apply) s

/-- The whole log up to the first refusal: the view reached, and the number of
entries applied or the refusal. -/
def strict (s : σ) : List ε → Nat → σ × Except ξ Nat
  | [], n => (s, .ok n)
  | e :: log, n =>
    match apply s e with
    | .ok s' => strict s' log (n + 1)
    | .error x => (s, .error x)

def Clean (s : σ) : List ε → Prop
  | [] => True
  | e :: log => (∃ s', apply s e = .ok s') ∧ Clean (applyOrKeep apply s e) log

variable {apply} {s s' : σ} {e : ε} {log more : List ε}

theorem applyOrKeep_ok (h : apply s e = .ok s') : applyOrKeep apply s e = s' := by
  simp [applyOrKeep, h]

theorem applyOrKeep_error {x : ξ} (h : apply s e = .error x) : applyOrKeep apply s e = s := by
  simp [applyOrKeep, h]

@[simp] theorem lenient_nil : lenient apply s [] = s := rfl

@[simp] theorem lenient_cons :
    lenient apply s (e :: log) = lenient apply (applyOrKeep apply s e) log := rfl

theorem lenient_append :
    lenient apply s (log ++ more) = lenient apply (lenient apply s log) more :=
  List.foldl_append

theorem lenient_invariant {I : σ → Prop} (hstep : ∀ s e s', I s → apply s e = .ok s' → I s')
    (log : List ε) : ∀ {s : σ}, I s → I (lenient apply s log) := by
  induction log with
  | nil => intro s h; exact h
  | cons e log ih =>
    intro s h
    rw [lenient_cons]
    cases ha : apply s e with
    | error x =>
      rw [applyOrKeep_error ha]
      exact ih h
    | ok s' =>
      rw [applyOrKeep_ok ha]
      exact ih (hstep s e s' h ha)

/-- **When the strict replay succeeds it reaches the lenient view.** -/
theorem strict_of_clean : ∀ (log : List ε) (s : σ) (n : Nat), Clean apply s log →
    strict apply s log n = (lenient apply s log, .ok (n + log.length)) := by
  intro log
  induction log with
  | nil => intro s n _; rfl
  | cons e log ih =>
    intro s n h
    obtain ⟨⟨s', hs'⟩, hrest⟩ := h
    rw [applyOrKeep_ok hs'] at hrest
    rw [strict, hs', lenient_cons, applyOrKeep_ok hs']
    simp only
    rw [ih s' (n + 1) hrest, List.length_cons]
    congr 2
    omega

theorem clean_of_strict : ∀ (log : List ε) (s : σ) (n m : Nat),
    (strict apply s log n).2 = .ok m → Clean apply s log := by
  intro log
  induction log with
  | nil => intro s n m _; exact trivial
  | cons e log ih =>
    intro s n m h
    rw [strict] at h
    cases ha : apply s e with
    | error x => rw [ha] at h; cases h
    | ok s' =>
      rw [ha] at h
      exact ⟨⟨s', ha⟩, by rw [applyOrKeep_ok ha]; exact ih s' (n + 1) m h⟩

theorem clean_append : ∀ (log : List ε) (s : σ),
    Clean apply s (log ++ more) ↔ Clean apply s log ∧ Clean apply (lenient apply s log) more := by
  intro log
  induction log with
  | nil => intro s; simp [Clean]
  | cons e log ih => intro s; simp [Clean, ih, and_assoc]

theorem Clean.take {log : List ε} {s : σ} (h : Clean apply s log) (n : Nat) :
    Clean apply s (log.take n) := by
  rw [← List.take_append_drop n log, clean_append] at h
  exact h.1

end Modbit.Lib
