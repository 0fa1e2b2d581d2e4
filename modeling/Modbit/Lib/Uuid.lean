import Mathlib.Algebra.Ring.Int.Parity
import Mathlib.Data.List.Basic

/-!
# UUIDs and their text

A UUID is a 128-bit value, held as its 32 hexadecimal digits.  `toText` prints
the hyphenated lower-case form in groups of 8, 4, 4, 4 and 12 digits.
`parseStr` accepts that form, the same in upper case, the 32 digits without
hyphens, the hyphenated form in braces and the `urn:uuid:` form, and nothing
else.

`parseStr_toText`: every printed UUID parses back to itself, so printing is
injective (`toText_inj`).
-/

namespace Modbit.Lib

open List

structure Uuid where
  digits : List (Fin 16)
  length_digits : digits.length = 32
deriving DecidableEq

namespace Uuid

instance neZero_sixteen : NeZero 16 := ⟨by decide⟩

def hexDigit (d : Fin 16) : Char := d.val.digitChar

def hexValue (c : Char) : Option (Fin 16) :=
  if '0'.toNat ≤ c.toNat ∧ c.toNat ≤ '9'.toNat then some (Fin.ofNat 16 (c.toNat - '0'.toNat))
  else if 'a'.toNat ≤ c.toNat ∧ c.toNat ≤ 'f'.toNat then
    some (Fin.ofNat 16 (c.toNat - 'a'.toNat + 10))
  else if 'A'.toNat ≤ c.toNat ∧ c.toNat ≤ 'F'.toNat then
    some (Fin.ofNat 16 (c.toNat - 'A'.toNat + 10))
  else none

/-- The digits of a number, for writing down a UUID. -/
def ofNat (n : Nat) : Uuid :=
  ⟨(List.range 32).map (fun i => Fin.ofNat 16 (n / 16 ^ (31 - i))), by simp⟩

/-! ### Groups -/

def hyphenate : List Nat → List Char → List Char
  | [], l => l
  | n :: ns, l => l.take n ++ '-' :: hyphenate ns (l.drop n)

/-- The hyphens taken out again, when they stand where they should. -/
def unhyphenate : List Nat → List Char → Option (List Char)
  | [], l => some l
  | n :: ns, l =>
    match l.drop n with
    | '-' :: rest => (unhyphenate ns rest).map (l.take n ++ ·)
    | _ => none

theorem unhyphenate_hyphenate : ∀ (ns : List Nat) (l : List Char), ns.sum ≤ l.length →
    unhyphenate ns (hyphenate ns l) = some l := by
  intro ns
  induction ns with
  | nil => intro l _; rfl
  | cons n ns ih =>
    intro l h
    rw [sum_cons] at h
    have hlen : (l.take n).length = n := by rw [length_take]; omega
    rw [hyphenate, unhyphenate, drop_left' hlen, take_left' hlen]
    simp only
    rw [ih (l.drop n) (by rw [length_drop]; omega), Option.map_some, take_append_drop]

theorem hyphenate_length : ∀ (ns : List Nat) (l : List Char), ns.sum ≤ l.length →
    (hyphenate ns l).length = l.length + ns.length := by
  intro ns
  induction ns with
  | nil => intro l _; rfl
  | cons n ns ih =>
    intro l h
    rw [sum_cons] at h
    have hrest := ih (l.drop n) (by rw [length_drop]; omega)
    simp only [hyphenate, length_append, length_cons, length_take, hrest, length_drop]
    omega

/-! ### Printing and parsing -/

def groups : List Nat := [8, 4, 4, 4]

def toText (u : Uuid) : String :=
  String.ofList (hyphenate groups (u.digits.map hexDigit))

def parseSimple (l : List Char) : Option Uuid :=
  match l.mapM hexValue with
  | some ds => if h : ds.length = 32 then some ⟨ds, h⟩ else none
  | none => none

def parseHyphenated (l : List Char) : Option Uuid := (unhyphenate groups l).bind parseSimple

def parseStr (s : String) : Option Uuid :=
  let l := s.toList
  if l.length = 32 then parseSimple l
  else if l.length = 36 then parseHyphenated l
  else if l.length = 38 ∧ l.head? = some '\x7b' ∧ l.getLast? = some '\x7d' then
    parseHyphenated (l.drop 1).dropLast
  else if l.length = 45 ∧ l.take 9 = "urn:uuid:".toList then parseHyphenated (l.drop 9)
  else none

theorem hexValue_hexDigit : ∀ d : Fin 16, hexValue (hexDigit d) = some d := by decide

theorem mapM_hexValue : ∀ ds : List (Fin 16), (ds.map hexDigit).mapM hexValue = some ds := by
  intro ds
  induction ds with
  | nil => rfl
  | cons d ds ih => rw [map_cons, mapM_cons, hexValue_hexDigit, ih]; rfl

/-- **A printed UUID parses back to itself.** -/
@[simp] theorem parseStr_toText (u : Uuid) : parseStr u.toText = some u := by
  have hlen : (u.digits.map hexDigit).length = 32 := by rw [length_map, u.length_digits]
  have hsum : groups.sum ≤ (u.digits.map hexDigit).length := by rw [hlen]; decide
  have h36 : (hyphenate groups (u.digits.map hexDigit)).length = 36 := by
    rw [hyphenate_length _ _ hsum, hlen]; rfl
  rw [parseStr, toText, String.toList_ofList]
  simp only [h36]
  rw [if_neg (by decide), if_pos trivial, parseHyphenated, unhyphenate_hyphenate _ _ hsum,
    Option.bind_some, parseSimple, mapM_hexValue]
  simp [u.length_digits]

theorem toText_inj {u v : Uuid} (h : u.toText = v.toText) : u = v := by
  have := parseStr_toText u
  rw [h, parseStr_toText] at this
  exact (Option.some.inj this).symm

end Uuid

end Modbit.Lib
