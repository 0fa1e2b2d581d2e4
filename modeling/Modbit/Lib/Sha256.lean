import Mathlib.Data.List.Basic

/-!
# SHA-256

The hash on lists of bytes, its lower-case hexadecimal text, and the keyed hash HMAC on top.
The development uses that it is a function, that it runs, and that its text is always
64 hexadecimal digits (`length_hex`, `hex_digits`).
-/

namespace Modbit.Lib.Sha256

open List

def roundConstants : List UInt32 :=
  [0x428a2f98, 0x71374491, 0xb5c0fbcf, 0xe9b5dba5, 0x3956c25b, 0x59f111f1, 0x923f82a4, 0xab1c5ed5,
   0xd807aa98, 0x12835b01, 0x243185be, 0x550c7dc3, 0x72be5d74, 0x80deb1fe, 0x9bdc06a7, 0xc19bf174,
   0xe49b69c1, 0xefbe4786, 0x0fc19dc6, 0x240ca1cc, 0x2de92c6f, 0x4a7484aa, 0x5cb0a9dc, 0x76f988da,
   0x983e5152, 0xa831c66d, 0xb00327c8, 0xbf597fc7, 0xc6e00bf3, 0xd5a79147, 0x06ca6351, 0x14292967,
   0x27b70a85, 0x2e1b2138, 0x4d2c6dfc, 0x53380d13, 0x650a7354, 0x766a0abb, 0x81c2c92e, 0x92722c85,
   0xa2bfe8a1, 0xa81a664b, 0xc24b8b70, 0xc76c51a3, 0xd192e819, 0xd6990624, 0xf40e3585, 0x106aa070,
   0x19a4c116, 0x1e376c08, 0x2748774c, 0x34b0bcb5, 0x391c0cb3, 0x4ed8aa4a, 0x5b9cca4f, 0x682e6ff3,
   0x748f82ee, 0x78a5636f, 0x84c87814, 0x8cc70208, 0x90befffa, 0xa4506ceb, 0xbef9a3f7, 0xc67178f2]

structure Words where
  (a b c d e f g h : UInt32)

def initial : Words :=
  ⟨0x6a09e667, 0xbb67ae85, 0x3c6ef372, 0xa54ff53a, 0x510e527f, 0x9b05688c, 0x1f83d9ab, 0x5be0cd19⟩

def rotr (x n : UInt32) : UInt32 := (x >>> n) ||| (x <<< (32 - n))

/-- The `n` big-endian bytes of a number. -/
def bigEndian : Nat → Nat → List UInt8
  | 0, _ => []
  | n + 1, v => bigEndian n (v / 256) ++ [UInt8.ofNat (v % 256)]

/-- A `1` bit, zeros up to 8 bytes short of a block, and the bit length. -/
def pad (bytes : List UInt8) : List UInt8 :=
  bytes ++ 0x80 :: List.replicate ((119 - bytes.length % 64) % 64) 0
    ++ bigEndian 8 (8 * bytes.length)

def toWords : List UInt8 → List UInt32
  | p :: q :: r :: s :: rest =>
    (p.toUInt32 <<< 24 ||| q.toUInt32 <<< 16 ||| r.toUInt32 <<< 8 ||| s.toUInt32) :: toWords rest
  | _ => []

/-- `n` further words of the message schedule, the newest word first. -/
def schedule : Nat → List UInt32 → List UInt32
  | 0, w => w
  | n + 1, w =>
    let s0 := w.getD 14 0
    let s1 := w.getD 1 0
    let small0 := rotr s0 7 ^^^ rotr s0 18 ^^^ (s0 >>> 3)
    let small1 := rotr s1 17 ^^^ rotr s1 19 ^^^ (s1 >>> 10)
    schedule n ((w.getD 15 0 + small0 + w.getD 6 0 + small1) :: w)

def round (v : Words) (kw : UInt32 × UInt32) : Words :=
  let big1 := rotr v.e 6 ^^^ rotr v.e 11 ^^^ rotr v.e 25
  let ch := (v.e &&& v.f) ^^^ (v.e ^^^ 0xffffffff) &&& v.g
  let t1 := v.h + big1 + ch + kw.1 + kw.2
  let big0 := rotr v.a 2 ^^^ rotr v.a 13 ^^^ rotr v.a 22
  let maj := (v.a &&& v.b) ^^^ (v.a &&& v.c) ^^^ (v.b &&& v.c)
  ⟨t1 + (big0 + maj), v.a, v.b, v.c, v.d + t1, v.e, v.f, v.g⟩

def compress (v : Words) (block : List UInt32) : Words :=
  let w := (schedule 48 block.reverse).reverse
  let u := (roundConstants.zip w).foldl round v
  ⟨v.a + u.a, v.b + u.b, v.c + u.c, v.d + u.d, v.e + u.e, v.f + u.f, v.g + u.g, v.h + u.h⟩

/-- Sixteen words at a time; the first argument bounds the number of blocks. -/
def absorb : Nat → Words → List UInt32 → Words
  | 0, v, _ => v
  | n + 1, v, ws => if ws.isEmpty then v else absorb n (compress v (ws.take 16)) (ws.drop 16)

def digest (bytes : List UInt8) : List UInt8 :=
  let ws := toWords (pad bytes)
  let v := absorb ws.length initial ws
  [v.a, v.b, v.c, v.d, v.e, v.f, v.g, v.h].flatMap (fun w => bigEndian 4 w.toNat)

def hexByte (b : UInt8) : List Char := [(b.toNat / 16).digitChar, (b.toNat % 16).digitChar]

def hex (bytes : List UInt8) : String := String.ofList ((digest bytes).flatMap hexByte)

/-- A key of at most a block is filled up with zeros, a longer one is hashed first. -/
def blockKey (key : List UInt8) : List UInt8 :=
  let short := if 64 < key.length then digest key else key
  short ++ List.replicate (64 - short.length) 0

def hmac (key bytes : List UInt8) : List UInt8 :=
  let outer := (blockKey key).map (fun b => b ^^^ 0x5c)
  let inner := (blockKey key).map (fun b => b ^^^ 0x36)
  digest (outer ++ digest (inner ++ bytes))

/-! ### The shape of the text -/

theorem length_bigEndian (n v : Nat) : (bigEndian n v).length = n := by
  induction n generalizing v with
  | zero => rfl
  | succ n ih => rw [bigEndian, length_append, ih, length_singleton]

theorem length_digest (bytes : List UInt8) : (digest bytes).length = 32 := by
  simp only [digest, length_flatMap, length_bigEndian]
  rfl

theorem length_hex (bytes : List UInt8) : (hex bytes).toList.length = 64 := by
  have htwo : ∀ l : List UInt8, (l.flatMap hexByte).length = 2 * l.length := by
    intro l
    induction l with
    | nil => rfl
    | cons b l ih =>
      rw [flatMap_cons, length_append, ih, length_cons]
      show 2 + 2 * l.length = _
      omega
  rw [hex, String.toList_ofList, htwo, length_digest]

def isHexDigit (c : Char) : Bool := ("0123456789abcdef".toList).contains c

theorem hex_digits (bytes : List UInt8) : ∀ c ∈ (hex bytes).toList, isHexDigit c = true := by
  have hdigit : ∀ n < 16, isHexDigit (Nat.digitChar n) = true := by decide
  intro c hc
  rw [hex, String.toList_ofList, mem_flatMap] at hc
  obtain ⟨b, -, hb⟩ := hc
  have hlt := b.toNat_lt
  rw [hexByte, mem_cons, mem_singleton] at hb
  rcases hb with rfl | rfl
  · exact hdigit _ (by omega)
  · exact hdigit _ (Nat.mod_lt _ (by decide))

end Modbit.Lib.Sha256
