import Mathlib.Tactic.TypeStar

/-!
# Computations that may be interrupted

A computation over a state that outlives it: it returns, fails, or its process stops
between two steps, and what it did to the state before that stays.  How each step goes is
a `Fault` given from outside.

`Ensures P m Q E` is a triple with a second postcondition, for every early end;
`ensures_bind`, `ensures_step` and `ensures_attempt` carry it through a sequence.
-/

namespace Modbit.Lib

/-- How a step goes: as it should, with an error, or not at all. -/
inductive Fault where
  | goes | fails | stops
  deriving DecidableEq

inductive Ended (ε : Type) where
  | stopped
  | failed (e : ε)
  deriving DecidableEq

def Act (σ ε α : Type) := σ → σ × Except (Ended ε) α

namespace Act

variable {σ ε α β : Type}

instance : Monad (Act σ ε) where
  pure a := fun s => (s, .ok a)
  bind m f := fun s =>
    match m s with
    | (s', .ok a) => f a s'
    | (s', .error e) => (s', .error e)

def fail (e : ε) : Act σ ε α := fun s => (s, .error (.failed e))

/-- One step, with the error it fails with from outside. -/
def step (fault : Fault) (e : ε) (f : σ → σ × Except ε α) : Act σ ε α := fun s =>
  match fault with
  | .stops => (s, .error .stopped)
  | .fails => (s, .error (.failed e))
  | .goes =>
    match f s with
    | (s', .ok a) => (s', .ok a)
    | (s', .error e) => (s', .error (.failed e))

def attempt (m : Act σ ε α) : Act σ ε (Option α) := fun s =>
  match m s with
  | (s', .ok a) => (s', .ok (some a))
  | (s', .error (.failed _)) => (s', .ok none)
  | (s', .error .stopped) => (s', .error .stopped)

/-- From a state with `P` the computation returns with `Q`, or ends early with `E`. -/
def Ensures (P : σ → Prop) (m : Act σ ε α) (Q : α → σ → Prop) (E : σ → Prop) : Prop :=
  ∀ s, P s →
    match m s with
    | (s', .ok a) => Q a s'
    | (s', .error _) => E s'

variable {P P' E : σ → Prop} {Q : α → σ → Prop} {R : β → σ → Prop} {m : Act σ ε α}

theorem Ensures.of (h : Ensures P m Q E) {s : σ} (hs : P s) :
    (∃ a, (m s).2 = .ok a ∧ Q a (m s).1) ∨ ((∃ e, (m s).2 = .error e) ∧ E (m s).1) := by
  have := h s hs
  split at this
  · next s' a hm =>
    rw [hm]
    exact Or.inl ⟨a, rfl, this⟩
  · next s' e hm =>
    rw [hm]
    exact Or.inr ⟨⟨e, rfl⟩, this⟩

theorem Ensures.state {I : σ → Prop} (h : Ensures P m (fun _ => I) I) {s : σ} (hs : P s) :
    I (m s).1 := by
  rcases h.of hs with ⟨a, -, hI⟩ | ⟨-, hI⟩
  · exact hI
  · exact hI

theorem Ensures.weaken {Q' : α → σ → Prop} (h : Ensures P m Q E) (hP : ∀ s, P' s → P s)
    (hQ : ∀ a s, Q a s → Q' a s) : Ensures P' m Q' E := by
  intro s hs
  have := h s (hP s hs)
  split at this
  · exact hQ _ _ this
  · exact this

theorem ensures_pure {a : α} (h : ∀ s, P s → Q a s) : Ensures P (pure a : Act σ ε α) Q E :=
  fun s hs => h s hs

variable {e : ε}

theorem ensures_fail (h : ∀ s, P s → E s) : Ensures P (fail e : Act σ ε α) Q E :=
  fun s hs => h s hs

theorem ensures_of_fact {p : Prop} (h : p → Ensures P m Q E) :
    Ensures (fun s => p ∧ P s) m Q E := fun s hs => h hs.1 s hs.2

theorem ensures_bind {f : α → Act σ ε β} (h : Ensures P m Q E)
    (h' : ∀ a, Ensures (Q a) (f a) R E) : Ensures P (m >>= f) R E := by
  intro s hs
  show match (match m s with | (s', .ok a) => f a s' | (s', .error e) => (s', .error e)) with
    | (s', .ok a) => R a s'
    | (s', .error _) => E s'
  have := h s hs
  split at this
  · exact h' _ _ this
  · exact this

theorem Ensures.done {Q : σ → Prop} (h : Ensures P m (fun _ => Q) E) :
    Ensures P (do let _ ← m) (fun _ => Q) E :=
  ensures_bind h (fun _ => ensures_pure (fun _ hs => hs))

theorem ensures_step {fault : Fault} {f : σ → σ × Except ε α}
    (hearly : fault ≠ .goes → ∀ s, P s → E s)
    (hok : fault = .goes → ∀ s s' a, P s → f s = (s', .ok a) → Q a s')
    (herr : fault = .goes → ∀ s s' e, P s → f s = (s', .error e) → E s') :
    Ensures P (step fault e f) Q E := by
  intro s hs
  cases fault with
  | stops => exact hearly (by decide) s hs
  | fails => exact hearly (by decide) s hs
  | goes =>
    rw [step]
    cases hf : f s with
    | mk s' r =>
      cases r with
      | ok a => exact hok rfl s s' a hs hf
      | error e => exact herr rfl s s' e hs hf

theorem ensures_attempt {fault : Fault} {f : σ → σ × Except ε α}
    {Q : Option α → σ → Prop} (hstop : fault = .stops → ∀ s, P s → E s)
    (hfail : fault = .fails → ∀ s, P s → Q none s)
    (hok : fault = .goes → ∀ s s' a, P s → f s = (s', .ok a) → Q (some a) s')
    (herr : fault = .goes → ∀ s s' e, P s → f s = (s', .error e) → Q none s') :
    Ensures P (attempt (step fault e f)) Q E := by
  intro s hs
  cases fault with
  | stops => exact hstop rfl s hs
  | fails => exact hfail rfl s hs
  | goes =>
    rw [attempt, step]
    cases hf : f s with
    | mk s' r =>
      cases r with
      | ok a => exact hok rfl s s' a hs hf
      | error e => exact herr rfl s s' e hs hf

end Act

end Modbit.Lib
