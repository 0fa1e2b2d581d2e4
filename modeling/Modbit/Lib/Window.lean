import Mathlib.Data.List.Induction

/-!
# At most once within a window

A log says which names were performed and which have left a window, in order.  `Once` is that no
name is performed twice without having left in between, and a name is `Open` if it was performed
and has not left since.

`Once.performed` is the rule for keeping it: what is performed next is not open.
-/

namespace Modbit.Lib.Window

open List

inductive Note (α : Type*) where
  | performed (a : α)
  | left (a : α)
  deriving DecidableEq

variable {α : Type*}

/-- Between two performances of a name it has left the window. -/
def Once (log : List (Note α)) : Prop :=
  ∀ a before between after,
    log = before ++ .performed a :: (between ++ .performed a :: after) → .left a ∈ between

/-- The name was performed and has not left the window since. -/
def Open (log : List (Note α)) (a : α) : Prop :=
  ∃ before after, log = before ++ .performed a :: after ∧ .left a ∉ after

variable {log : List (Note α)} {a b : α}

theorem once_nil : Once ([] : List (Note α)) := by
  intro a before between after h
  exact absurd h.symm (by simp)

theorem not_open_nil : ¬ Open ([] : List (Note α)) a := by
  rintro ⟨before, after, h, -⟩
  exact absurd h.symm (by simp)

theorem concat_split {n m : Note α} {before after : List (Note α)}
    (h : log ++ [n] = before ++ m :: after) :
    (after = [] ∧ log = before ∧ n = m) ∨
      ∃ after', after = after' ++ [n] ∧ log = before ++ m :: after' := by
  rcases eq_nil_or_concat after with rfl | ⟨after', l, rfl⟩
  · obtain ⟨hlog, hn⟩ := append_inj' h rfl
    exact Or.inl ⟨rfl, hlog, singleton_inj.mp hn⟩
  · rw [concat_eq_append, ← cons_append, ← append_assoc] at h
    obtain ⟨hlog, hn⟩ := append_inj' h rfl
    obtain rfl := singleton_inj.mp hn
    exact Or.inr ⟨after', concat_eq_append, hlog⟩

theorem open_left (h : Open (log ++ [.left b]) a) : Open log a ∧ b ≠ a := by
  obtain ⟨before, after, hsplit, hleft⟩ := h
  rcases concat_split hsplit with ⟨-, -, hn⟩ | ⟨after', rfl, hlog⟩
  · cases hn
  · refine ⟨⟨before, after', hlog, fun hm => hleft (mem_append_left _ hm)⟩, ?_⟩
    rintro rfl
    exact hleft (mem_append_right _ mem_cons_self)

theorem open_performed (h : Open (log ++ [.performed b]) a) : Open log a ∨ b = a := by
  obtain ⟨before, after, hsplit, hleft⟩ := h
  rcases concat_split hsplit with ⟨-, -, hn⟩ | ⟨after', rfl, hlog⟩
  · exact Or.inr (Note.performed.inj hn)
  · exact Or.inl ⟨before, after', hlog, fun hm => hleft (mem_append_left _ hm)⟩

theorem open_lefts (names : List α) : Open (log ++ names.map .left) a → Open log a ∧ a ∉ names := by
  induction names using List.reverseRecOn with
  | nil =>
    intro h
    rw [map_nil, append_nil] at h
    exact ⟨h, not_mem_nil⟩
  | append_singleton names b ih =>
    intro h
    rw [map_append, map_singleton, ← append_assoc] at h
    obtain ⟨hopen, hne⟩ := open_left h
    obtain ⟨hlog, hmem⟩ := ih hopen
    refine ⟨hlog, fun hm => ?_⟩
    rcases mem_append.mp hm with hm | hm
    · exact hmem hm
    · exact hne (mem_singleton.mp hm).symm

theorem Once.left (h : Once log) (b : α) : Once (log ++ [.left b]) := by
  intro a before between after hsplit
  rw [← cons_append, ← append_assoc] at hsplit
  rcases concat_split hsplit with ⟨-, -, hn⟩ | ⟨after', rfl, hlog⟩
  · cases hn
  · exact h a before between after' (by rw [hlog, append_assoc, cons_append])

theorem Once.lefts (h : Once log) (names : List α) : Once (log ++ names.map .left) := by
  induction names using List.reverseRecOn with
  | nil =>
    rw [map_nil, append_nil]
    exact h
  | append_singleton names b ih =>
    rw [map_append, map_singleton, ← append_assoc]
    exact ih.left b

theorem Once.performed (h : Once log) (hopen : ¬ Open log b) : Once (log ++ [.performed b]) := by
  intro a before between after hsplit
  rw [← cons_append, ← append_assoc] at hsplit
  rcases concat_split hsplit with ⟨-, hlog, hn⟩ | ⟨after', rfl, hlog⟩
  · obtain rfl := Note.performed.inj hn
    by_contra hleft
    exact hopen ⟨before, between, hlog, hleft⟩
  · exact h a before between after' (by rw [hlog, append_assoc, cons_append])

end Modbit.Lib.Window
