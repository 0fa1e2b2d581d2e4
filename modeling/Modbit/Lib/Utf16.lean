import Modbit.Lib.Utf8

/-!
# Texts as UTF-16

A text of code units may have surrogates that are not in pairs: `lossy` reads each of them
as a replacement character, and what has none is `WellFormed`.
-/

namespace Modbit.Lib.Utf16

open List

def units (c : Char) : List UInt16 :=
  let v := c.val.toNat
  if v < 0x10000 then [UInt16.ofNat v]
  else [UInt16.ofNat (0xd800 + (v - 0x10000) / 0x400), UInt16.ofNat (0xdc00 + (v - 0x10000) % 0x400)]

def encode (l : List Char) : List UInt16 := l.flatMap units

def single (u : UInt16) : Char :=
  if 0xd800 ≤ u.toNat ∧ u.toNat ≤ 0xdfff then Utf8.replacement else Char.ofNat u.toNat

def lossy : List UInt16 → List Char
  | [] => []
  | [u] => [single u]
  | u :: u' :: rest =>
    if (0xd800 ≤ u.toNat ∧ u.toNat ≤ 0xdbff) ∧ 0xdc00 ≤ u'.toNat ∧ u'.toNat ≤ 0xdfff then
      Char.ofNat (0x10000 + (u.toNat - 0xd800) * 0x400 + (u'.toNat - 0xdc00)) :: lossy rest
    else single u :: lossy (u' :: rest)

def WellFormed (s : List UInt16) : Prop := encode (lossy s) = s

instance (s : List UInt16) : Decidable (WellFormed s) := inferInstanceAs (Decidable (_ = _))

theorem lossy_cons {u : UInt16} (h : ¬ (0xd800 ≤ u.toNat ∧ u.toNat ≤ 0xdfff)) (rest : List UInt16) :
    lossy (u :: rest) = Char.ofNat u.toNat :: lossy rest := by
  have hsingle : single u = Char.ofNat u.toNat := if_neg h
  cases rest with
  | nil =>
    show [single u] = [Char.ofNat u.toNat]
    rw [hsingle]
  | cons u' rest =>
    have hpair : ¬ ((0xd800 ≤ u.toNat ∧ u.toNat ≤ 0xdbff) ∧ 0xdc00 ≤ u'.toNat ∧ u'.toNat ≤ 0xdfff) := by
      omega
    rw [lossy, if_neg hpair, hsingle]

theorem lossy_units (c : Char) (rest : List UInt16) : lossy (units c ++ rest) = c :: lossy rest := by
  have hvalid : c.val.toNat < 0xd800 ∨ 0xdfff < c.val.toNat ∧ c.val.toNat < 0x110000 := c.valid
  have hself : Char.ofNat c.val.toNat = c := Char.ofNat_toNat c
  have hlow : ∀ {n : Nat}, n < 0x10000 → (UInt16.ofNat n).toNat = n := fun h =>
    UInt16.toNat_ofNat_of_lt' h
  rw [units]
  generalize c.val.toNat = v at hvalid hself ⊢
  split_ifs with hv
  · rw [cons_append, nil_append, lossy_cons (by rw [hlow hv]; omega), hlow hv, hself]
  · have hhigh := hlow (n := 0xd800 + (v - 0x10000) / 0x400) (by omega)
    have hsecond := hlow (n := 0xdc00 + (v - 0x10000) % 0x400) (by omega)
    rw [cons_append, cons_append, nil_append, lossy, hhigh, hsecond, if_pos (by omega), ← hself]
    have hsum : 0x10000 + (0xd800 + (v - 0x10000) / 0x400 - 0xd800) * 0x400
        + (0xdc00 + (v - 0x10000) % 0x400 - 0xdc00) = v := by omega
    exact congrArg (fun n => Char.ofNat n :: lossy rest) hsum

/-- **A text is read back as it was.** -/
theorem lossy_encode (l : List Char) : lossy (encode l) = l := by
  induction l with
  | nil => rfl
  | cons c l ih =>
    rw [encode, flatMap_cons, lossy_units]
    exact congrArg (c :: ·) ih

end Modbit.Lib.Utf16
