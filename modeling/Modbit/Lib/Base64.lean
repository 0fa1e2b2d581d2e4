import Mathlib.Data.List.Basic

/-!
# Base 64

Three bytes are written as four symbols of the standard alphabet, and the last one or two
bytes of a text with one or two `=` at its end.  The reader takes nothing else: the `=` have
to be there, and the bits of the last symbol that belong to no byte have to be zero.
-/

namespace Modbit.Lib.Base64

def alphabet : List Char :=
  "ABCDEFGHIJKLMNOPQRSTUVWXYZabcdefghijklmnopqrstuvwxyz0123456789+/".toList

def symbol (n : Nat) : Char := alphabet.getD n '='

def value (c : Char) : Option Nat := alphabet.idxOf? c

def encodeChars : List UInt8 → List Char
  | [] => []
  | [a] => [symbol (a.toNat / 4), symbol (a.toNat % 4 * 16), '=', '=']
  | [a, b] =>
    [symbol (a.toNat / 4), symbol (a.toNat % 4 * 16 + b.toNat / 16), symbol (b.toNat % 16 * 4), '=']
  | a :: b :: c :: rest =>
    symbol (a.toNat / 4) :: symbol (a.toNat % 4 * 16 + b.toNat / 16)
      :: symbol (b.toNat % 16 * 4 + c.toNat / 64) :: symbol (c.toNat % 64) :: encodeChars rest

def encode (bytes : List UInt8) : String := String.ofList (encodeChars bytes)

/-- The byte of two symbols, the last four bits of which are zero. -/
def oneByte (w x : Char) : Option (List UInt8) := do
  let w ← value w
  let x ← value x
  if x % 16 = 0 then some [.ofNat (w * 4 + x / 16)] else none

/-- The bytes of three symbols, the last two bits of which are zero. -/
def twoBytes (w x y : Char) : Option (List UInt8) := do
  let w ← value w
  let x ← value x
  let y ← value y
  if y % 4 = 0 then some [.ofNat (w * 4 + x / 16), .ofNat (x % 16 * 16 + y / 4)] else none

def threeBytes (w x y z : Char) : Option (List UInt8) := do
  let w ← value w
  let x ← value x
  let y ← value y
  let z ← value z
  some [.ofNat (w * 4 + x / 16), .ofNat (x % 16 * 16 + y / 4), .ofNat (y % 4 * 64 + z)]

def decodeChars : List Char → Option (List UInt8)
  | [] => some []
  | w :: x :: y :: z :: rest =>
    if rest = [] ∧ z = '=' then
      if y = '=' then oneByte w x else twoBytes w x y
    else (threeBytes w x y z).bind (fun bytes => (decodeChars rest).map (bytes ++ ·))
  | _ => none

def decode (text : String) : Option (List UInt8) := decodeChars text.toList

example : encode [0x4d, 0x61] = "TWE=" ∧ decode "TWE=" = some [0x4d, 0x61] ∧ decode "TWF=" = none := by
  decide +kernel

end Modbit.Lib.Base64
