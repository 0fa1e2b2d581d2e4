import Mathlib.Data.List.Basic

/-!
# Reading a growing list page by page

A list whose elements carry strictly increasing keys is read by a cursor: a page is
the next few elements beyond the cursor's key, and the cursor moves to the key of the
last element of the page.  `upTo_take` is the step of such a reader: what lies up to the
new cursor is what lay up to the old one, followed by the page.
-/

namespace Modbit.Lib

open List

variable {α : Type*} {key : α → Nat} {l : List α}

def upTo (key : α → Nat) (cursor : Nat) (l : List α) : List α :=
  l.filter (fun a => key a ≤ cursor)

def beyond (key : α → Nat) (cursor : Nat) (l : List α) : List α :=
  l.filter (fun a => cursor < key a)

def resumeAt (key : α → Nat) (cursor : Nat) (page : List α) : Nat :=
  (page.getLast?.map key).getD cursor

/-- The keys strictly increase along the list. -/
abbrev Increasing (key : α → Nat) (l : List α) : Prop := l.Pairwise (fun a b => key a < key b)

variable {cursor : Nat}

theorem upTo_eq_nil (h : ∀ a ∈ l, cursor < key a) : upTo key cursor l = [] := by
  rw [upTo, filter_eq_nil_iff]
  intro a ha
  have := h a ha
  simp only [decide_eq_true_eq]
  omega

theorem beyond_eq_self (h : ∀ a ∈ l, cursor < key a) : beyond key cursor l = l := by
  rw [beyond, filter_eq_self]
  intro a ha
  exact decide_eq_true (h a ha)

theorem upTo_append_beyond (h : Increasing key l) (cursor : Nat) :
    upTo key cursor l ++ beyond key cursor l = l := by
  induction l with
  | nil => rfl
  | cons a l ih =>
    obtain ⟨hhead, htail⟩ := pairwise_cons.mp h
    by_cases ha : key a ≤ cursor
    · have hin : upTo key cursor (a :: l) = a :: upTo key cursor l :=
        filter_cons_of_pos (by simpa using ha)
      have hout : beyond key cursor (a :: l) = beyond key cursor l :=
        filter_cons_of_neg (by simpa using ha)
      rw [hin, hout, cons_append, ih htail]
    · have hall : ∀ b ∈ a :: l, cursor < key b := by
        intro b hb
        rcases mem_cons.mp hb with rfl | hb
        · omega
        · have := hhead b hb
          omega
      rw [upTo_eq_nil hall, beyond_eq_self hall, nil_append]

theorem upTo_getLast {part rest : List α} {a : α} (h : Increasing key (part ++ a :: rest)) :
    upTo key (key a) (part ++ a :: rest) = part ++ [a] := by
  obtain ⟨-, htail, hcross⟩ := pairwise_append.mp h
  have hpart : upTo key (key a) part = part := by
    rw [upTo, filter_eq_self]
    intro b hb
    exact decide_eq_true (Nat.le_of_lt (hcross b hb a mem_cons_self))
  have hrest : upTo key (key a) rest = [] := upTo_eq_nil (pairwise_cons.mp htail).1
  rw [upTo] at hpart hrest
  rw [upTo, filter_append, hpart, filter_cons_of_pos (by simp), hrest]

/-- **One page moves the cursor over exactly that page.** -/
theorem upTo_take (h : Increasing key l) (cursor n : Nat) :
    upTo key (resumeAt key cursor ((beyond key cursor l).take n)) l
      = upTo key cursor l ++ (beyond key cursor l).take n := by
  rcases eq_nil_or_concat' ((beyond key cursor l).take n) with hnil | ⟨page, a, hpage⟩
  · rw [hnil, append_nil]
    rfl
  · have hcut : l = (upTo key cursor l ++ page) ++ a :: (beyond key cursor l).drop n := by
      have hsplit := upTo_append_beyond h cursor
      rw [← take_append_drop n (beyond key cursor l), hpage] at hsplit
      simpa using hsplit.symm
    have hlast : resumeAt key cursor ((beyond key cursor l).take n) = key a := by
      rw [resumeAt, hpage, getLast?_concat]
      rfl
    rw [hlast, hpage, ← append_assoc]
    rw [hcut] at h
    have := upTo_getLast h
    rw [← hcut] at this
    exact this

theorem upTo_append_of_beyond {more : List α} (h : ∀ a ∈ more, cursor < key a) :
    upTo key cursor (l ++ more) = upTo key cursor l := by
  have hmore := upTo_eq_nil h
  rw [upTo] at hmore
  rw [upTo, filter_append, hmore, append_nil]
  rfl

end Modbit.Lib
