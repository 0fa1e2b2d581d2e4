import Mathlib.Data.List.Basic
import Mathlib.Data.List.Induction
import Mathlib.Data.List.Infix

/-!
# Runs of a state machine

A machine takes an input in a state and answers with a next state and a response,
`step : σ → ι → σ × ρ`.  `run` folds a list of inputs; `Path` is the same as a relation in which
every input meets a side condition `ok` in the state it arrives in.

`Path.invariant` is the rule of invariants (`Path.invariant_run` where what is known of every run
is needed for a step), and `path_run`, `exists_run_of_path` and `path_of_admits` go between paths
and lists.  `replies_concat` says what a run answers last.

`Always` is what holds in every state that a run passes.  Where a step keeps a property exactly if
it meets a condition, it always holds exactly if every step does (`always_iff_admits_on`).
-/

namespace Modbit.Lib

open List

variable {σ ι ρ : Type*}

/-- Some finite list of inputs, each meeting `ok` in the state it arrives in,
leads from `s` to the second argument. -/
inductive Path (step : σ → ι → σ × ρ) (ok : σ → ι → Prop) (s : σ) : σ → Prop
  | refl : Path step ok s s
  | tail {t : σ} (prior : Path step ok s t) (i : ι) (hok : ok t i) : Path step ok s (step t i).1

def run (step : σ → ι → σ × ρ) (s : σ) (is : List ι) : σ :=
  is.foldl (fun t i => (step t i).1) s

def replies (step : σ → ι → σ × ρ) : σ → List ι → List ρ
  | _, [] => []
  | s, i :: is => (step s i).2 :: replies step (step s i).1 is

variable {step : σ → ι → σ × ρ} {ok : σ → ι → Prop} {s t : σ}

/-- **The invariant rule.**  What holds at the start and is kept by every
admitted input holds at the end of every path. -/
theorem Path.invariant {I : σ → Prop} (h : Path step ok s t) (h0 : I s)
    (hstep : ∀ t i, I t → ok t i → I (step t i).1) : I t := by
  induction h with
  | refl => exact h0
  | tail _ i hok ih => exact hstep _ i ih hok

theorem Path.trans {u : σ} (h : Path step ok s t) (g : Path step ok t u) :
    Path step ok s u := by
  induction g with
  | refl => exact h
  | tail _ i hok ih => exact .tail ih i hok

@[simp] theorem run_nil (s : σ) : run step s [] = s := rfl

@[simp] theorem run_cons (s : σ) (i : ι) (is : List ι) :
    run step s (i :: is) = run step (step s i).1 is := rfl

theorem run_append (s : σ) (is js : List ι) :
    run step s (is ++ js) = run step (run step s is) js := foldl_append

theorem path_run (s : σ) (is : List ι) :
    Path step (fun _ _ => True) s (run step s is) := by
  induction is generalizing s with
  | nil => exact .refl
  | cons i is ih =>
    have first : Path step (fun _ _ => True) s (step s i).1 := .tail .refl i trivial
    exact first.trans (ih (step s i).1)

/-- Every input of a list meets `ok` in the state it arrives in. -/
def Admits (step : σ → ι → σ × ρ) (ok : σ → ι → Prop) : σ → List ι → Prop
  | _, [] => True
  | s, i :: is => ok s i ∧ Admits step ok (step s i).1 is

instance decidableAdmits [∀ s i, Decidable (ok s i)] :
    ∀ (s : σ) (is : List ι), Decidable (Admits step ok s is)
  | _, [] => .isTrue trivial
  | s, i :: is => @instDecidableAnd _ _ _ (decidableAdmits (step s i).1 is)

theorem admits_congr {ok' : σ → ι → Prop} (h : ∀ s i, ok s i ↔ ok' s i) (is : List ι) :
    ∀ s : σ, Admits step ok s is ↔ Admits step ok' s is := by
  induction is with
  | nil => exact fun _ => Iff.rfl
  | cons i is ih => exact fun s => and_congr (h s i) (ih _)

theorem path_of_admits (is : List ι) : ∀ {s : σ}, Admits step ok s is →
    Path step ok s (run step s is) := by
  induction is with
  | nil => intro s _; exact .refl
  | cons i is ih =>
    intro s h
    have first : Path step ok s (step s i).1 := .tail .refl i h.1
    exact first.trans (ih h.2)

theorem admits_append {is js : List ι} : ∀ {s : σ},
    Admits step ok s (is ++ js) ↔ Admits step ok s is ∧ Admits step ok (run step s is) js := by
  induction is with
  | nil => intro s; exact (iff_of_eq (true_and _)).symm
  | cons i is ih =>
    intro s
    rw [cons_append, Admits, Admits, ih, run_cons, and_assoc]

theorem exists_run_of_path (h : Path step ok s t) : ∃ is, run step s is = t := by
  induction h with
  | refl => exact ⟨[], rfl⟩
  | tail _ i _ ih =>
    obtain ⟨is, rfl⟩ := ih
    exact ⟨is ++ [i], by rw [run_append]; rfl⟩

theorem Path.invariant_run {I : σ → Prop} (h : Path step ok s t) (h0 : I s)
    (hstep : ∀ is i, I (run step s is) → ok (run step s is) i → I (step (run step s is) i).1) :
    I t := by
  induction h with
  | refl => exact h0
  | tail prior i hok ih =>
    obtain ⟨is, rfl⟩ := exists_run_of_path prior
    exact hstep is i ih hok

theorem replies_length (s : σ) (is : List ι) : (replies step s is).length = is.length := by
  induction is generalizing s with
  | nil => rfl
  | cons i is ih => simp [replies, ih]

theorem replies_concat (s : σ) (is : List ι) (i : ι) :
    replies step s (is ++ [i]) = replies step s is ++ [(step (run step s is) i).2] := by
  induction is generalizing s with
  | nil => rfl
  | cons j is ih =>
    rw [cons_append, replies, replies, run_cons, ih, cons_append]

def Always (step : σ → ι → σ × ρ) (I : σ → Prop) (s : σ) (is : List ι) : Prop :=
  ∀ js, js <+: is → I (run step s js)

variable {I : σ → Prop}

theorem always_nil : Always step I s [] ↔ I s := by
  constructor
  · exact fun h => h [] (prefix_refl [])
  · intro h js hjs
    rw [prefix_nil.mp hjs]
    exact h

theorem always_concat (is : List ι) (i : ι) :
    Always step I s (is ++ [i]) ↔ Always step I s is ∧ I (step (run step s is) i).1 := by
  constructor
  · intro h
    refine ⟨fun js hjs => h js (hjs.trans (prefix_append is [i])), ?_⟩
    have hlast := h (is ++ [i]) (prefix_refl _)
    rw [run_append] at hlast
    exact hlast
  · rintro ⟨hprior, hlast⟩ js hjs
    rcases prefix_concat_iff.mp hjs with rfl | hjs
    · rw [run_append]
      exact hlast
    · exact hprior js hjs

theorem admits_iff (is : List ι) :
    Admits step ok s is ↔ ∀ js i, js ++ [i] <+: is → ok (run step s js) i := by
  induction is using List.reverseRecOn with
  | nil =>
    refine iff_of_true trivial (fun js i h => ?_)
    exact absurd (prefix_nil.mp h) (append_ne_nil_of_right_ne_nil _ (cons_ne_nil _ _))
  | append_singleton is i ih =>
    rw [admits_append, ih]
    constructor
    · rintro ⟨hprior, hlast, -⟩ js j hjs
      rcases prefix_concat_iff.mp hjs with heq | hjs
      · obtain ⟨rfl, hj⟩ := append_inj' heq rfl
        obtain rfl := (List.cons.inj hj).1
        exact hlast
      · exact hprior js j hjs
    · intro h
      refine ⟨fun js j hjs => h js j (hjs.trans (prefix_append is [i])), ?_, trivial⟩
      exact h is i (prefix_refl _)

/-- **A property always holds exactly if every step meets the condition to keep it**, among the runs
whose steps meet a side condition. -/
theorem always_iff_admits_on (side : σ → ι → Prop) (hstep : ∀ is i, side (run step s is) i →
      I (run step s is) → (I (step (run step s is) i).1 ↔ ok (run step s is) i)) (is : List ι) :
    Admits step side s is ∧ Always step I s is ↔
      I s ∧ Admits step (fun t i => side t i ∧ ok t i) s is := by
  induction is using List.reverseRecOn with
  | nil => exact ⟨fun h => ⟨always_nil.mp h.2, trivial⟩, fun h => ⟨trivial, always_nil.mpr h.1⟩⟩
  | append_singleton is i ih =>
    rw [always_concat, admits_append, admits_append]
    constructor
    · rintro ⟨⟨hsides, hside, -⟩, hprior, hlast⟩
      obtain ⟨h0, hadmits⟩ := ih.mp ⟨hsides, hprior⟩
      have hI := hprior is (prefix_refl is)
      exact ⟨h0, hadmits, ⟨hside, (hstep is i hside hI).mp hlast⟩, trivial⟩
    · rintro ⟨h0, hadmits, ⟨hside, hok⟩, -⟩
      obtain ⟨hsides, hprior⟩ := ih.mpr ⟨h0, hadmits⟩
      have hI := hprior is (prefix_refl is)
      exact ⟨⟨hsides, hside, trivial⟩, hprior, (hstep is i hside hI).mpr hok⟩

theorem admits_of_forall (h : ∀ s i, ok s i) : ∀ (is : List ι) (s : σ), Admits step ok s is
  | [], _ => trivial
  | i :: is, s => ⟨h s i, admits_of_forall h is _⟩

theorem always_iff_admits (h0 : I s)
    (hstep : ∀ is i, I (run step s is) → (I (step (run step s is) i).1 ↔ ok (run step s is) i))
    (is : List ι) : Always step I s is ↔ Admits step ok s is := by
  have hall : Admits step (fun _ _ => True) s is := admits_of_forall (fun _ _ => trivial) is s
  have hon := always_iff_admits_on (fun _ _ => True) (fun is i _ => hstep is i) is
  rw [and_iff_right hall, and_iff_right h0] at hon
  exact hon.trans (admits_congr (fun _ _ => and_iff_right trivial) is s)

/-- The rule with an invariant, which a step that does not meet the condition need not break by itself:
it breaks what the invariant is for. -/
theorem always_iff_admits_of {J : σ → Prop} (h0 : J s) (hJ : ∀ s, J s → I s)
    (hkeep : ∀ s i, J s → ok s i → J (step s i).1) (hbreak : ∀ s i, J s → ¬ ok s i → ¬ I (step s i).1)
    (is : List ι) : Always step I s is ↔ Admits step ok s is := by
  have hinv : ∀ is, Admits step ok s is → J (run step s is) := by
    intro is
    induction is using List.reverseRecOn with
    | nil => exact fun _ => h0
    | append_singleton is i ih =>
      intro h
      obtain ⟨hprior, hlast, -⟩ := admits_append.mp h
      rw [run_append]
      exact hkeep _ i (ih hprior) hlast
  induction is using List.reverseRecOn with
  | nil => exact iff_of_true (always_nil.mpr (hJ s h0)) trivial
  | append_singleton is i ih =>
    rw [always_concat, admits_append]
    constructor
    · rintro ⟨hprior, hlast⟩
      have hadmits := ih.mp hprior
      refine ⟨hadmits, ?_, trivial⟩
      by_contra hnot
      exact hbreak _ i (hinv is hadmits) hnot hlast
    · rintro ⟨hadmits, hlast, -⟩
      exact ⟨ih.mpr hadmits, hJ _ (hkeep _ i (hinv is hadmits) hlast)⟩

end Modbit.Lib
