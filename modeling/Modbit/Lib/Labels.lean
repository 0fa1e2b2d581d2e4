import Mathlib.Data.String.Basic
import Mathlib.Order.Defs.LinearOrder

/-!
# Numbered labels

A label is a text with a number behind it, in decimal.  Two numbers have two labels
(`label_inj`).  Labels are compared as texts, which is how their numbers compare up to nine
(`label_lt_iff`), and no more from ten on (`label_ten_lt`).
-/

namespace Modbit.Lib

def label (lead : String) (n : Nat) : String := lead ++ toString n

theorem toList_label (lead : String) (n : Nat) :
    (label lead n).toList = lead.toList ++ Nat.toDigits 10 n := by
  rw [label, String.toList_append]
  congr 1
  exact String.toList_ofList

def labelNumber (lead text : String) : Nat :=
  Nat.ofDigitChars 10 (text.toList.drop lead.toList.length) 0

theorem labelNumber_label (lead : String) (n : Nat) : labelNumber lead (label lead n) = n := by
  rw [labelNumber, toList_label, List.drop_left]
  exact Nat.ofDigitChars_ten_toDigits

theorem label_inj {lead : String} {m n : Nat} (h : label lead m = label lead n) : m = n := by
  rw [← labelNumber_label lead m, h, labelNumber_label]

theorem append_lt_append_iff (lead a b : List Char) : lead ++ a < lead ++ b ↔ a < b := by
  induction lead with
  | nil => rfl
  | cons c lead ih => simp [ih]

theorem label_lt_iff {m n : Nat} (lead : String) (hm : m ≤ 9) (hn : n ≤ 9) :
    label lead m < label lead n ↔ m < n := by
  have hdigits : ∀ m ∈ List.range 10, ∀ n ∈ List.range 10,
      (Nat.toDigits 10 m < Nat.toDigits 10 n ↔ m < n) := by decide
  rw [String.lt_iff_toList_lt, toList_label, toList_label, append_lt_append_iff]
  exact hdigits m (List.mem_range.mpr (by omega)) n (List.mem_range.mpr (by omega))

theorem label_ten_lt (lead : String) : label lead 10 < label lead 2 := by
  rw [String.lt_iff_toList_lt, toList_label, toList_label, append_lt_append_iff]
  decide

end Modbit.Lib
