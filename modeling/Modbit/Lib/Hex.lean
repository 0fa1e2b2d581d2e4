import Modbit.Lib.Sha256
import Modbit.Lib.Utf8
import Modbit.Lib.Uuid

/-!
# Hexadecimal text read in slices

A reader that takes two bytes of a text at a time and parses each slice as a number in base 16.
`parseU8` is `u8::from_str_radix`, which lets a `+` stand before the digits, and a slice that does
not begin and end where characters do is a panic, the outer `none` of `decodePairs`.

`Spells` are the texts that are bytes in hexadecimal, `Reads` those that the reader takes for them,
and `Splits` those at which it panics; `decodePairs_eq_ok` and `decodePairs_eq_panic` say so.
-/

namespace Modbit.Lib.Hex

open List

open Uuid (hexValue)

/-! ### The reader -/

def digitOf (b : UInt8) : Option (Fin 16) :=
  if b.toNat < 0x80 then hexValue (Char.ofNat b.toNat) else none

def unsigned : List UInt8 → List UInt8
  | 0x2b :: d :: rest => d :: rest
  | other => other

def numberOf (digits : List (Fin 16)) : Option UInt8 :=
  let v := digits.foldl (fun (acc : Nat) (x : Fin 16) => acc * 16 + x.val) 0
  if digits ≠ [] ∧ v < 256 then some (UInt8.ofNat v) else none

/-- `u8::from_str_radix(_, 16)` on the bytes of a text. -/
def parseU8 (text : List UInt8) : Option UInt8 := ((unsigned text).mapM digitOf).bind numberOf

def isBoundary : List UInt8 → Bool
  | [] => true
  | b :: _ => !(0x80 ≤ b.toNat && b.toNat < 0xc0)

/-- `&s[i..i + 2]` on the rest of a text, and what comes after it. -/
def takePair (rest : List UInt8) : Option (List UInt8 × List UInt8) :=
  if 2 ≤ rest.length ∧ isBoundary rest = true ∧ isBoundary (rest.drop 2) = true then
    some (rest.take 2, rest.drop 2)
  else none

/-- So many slices of a text, until one is no number. -/
def decodePairs : Nat → List UInt8 → Option (Option (List UInt8))
  | 0, _ => some (some [])
  | n + 1, rest =>
    match takePair rest with
    | none => none
    | some (pair, rest) =>
      match parseU8 pair with
      | none => some none
      | some v => (decodePairs n rest).map (Option.map (v :: ·))

/-- `format!("{b:02x}")` for each byte. -/
def encode (bytes : List UInt8) : List Char := bytes.flatMap Sha256.hexByte

/-! ### The texts -/

def byteOf (x y : Fin 16) : UInt8 := UInt8.ofNat (x.val * 16 + y.val)

/-- The characters are the bytes, each in two hexadecimal digits. -/
inductive Spells : List Char → List UInt8 → Prop
  | nil : Spells [] []
  | pair {c d : Char} {x y : Fin 16} {rest : List Char} {bytes : List UInt8}
      (hx : hexValue c = some x) (hy : hexValue d = some y) (h : Spells rest bytes) :
      Spells (c :: d :: rest) (byteOf x y :: bytes)

/-- What two characters are read as: the first may be a sign. -/
def pairValue (c d : Char) : Option UInt8 :=
  (hexValue d).bind (fun y =>
    match hexValue c with
    | some x => some (byteOf x y)
    | none => if c = '+' then some (byteOf 0 y) else none)

inductive Reads : List Char → List UInt8 → Prop
  | nil : Reads [] []
  | pair {c d : Char} {v : UInt8} {rest : List Char} {bytes : List UInt8}
      (hv : pairValue c d = some v) (h : Reads rest bytes) : Reads (c :: d :: rest) (v :: bytes)

/-- After pairs that are read, a slice that ends inside a character. -/
inductive Splits : List Char → Prop
  | wide {c : Char} (rest : List Char) (h : 3 ≤ c.utf8Size) : Splits (c :: rest)
  | across {c d : Char} (rest : List Char) (hc : c.utf8Size = 1) (hd : 2 ≤ d.utf8Size) :
      Splits (c :: d :: rest)
  | later {c d : Char} {v : UInt8} {rest : List Char} (hv : pairValue c d = some v)
      (h : Splits rest) : Splits (c :: d :: rest)

variable {s : List Char} {bytes : List UInt8}

theorem Spells.reads (h : Spells s bytes) : Reads s bytes := by
  induction h with
  | nil => exact .nil
  | pair hx hy _ ih => exact .pair (by rw [pairValue, hy, Option.bind_some, hx]) ih

theorem Reads.spells (h : Reads s bytes) (hplain : '+' ∉ s) : Spells s bytes := by
  induction h with
  | nil => exact .nil
  | @pair c d v rest bytes hv _ ih =>
    rw [mem_cons, mem_cons, not_or, not_or] at hplain
    obtain ⟨y, hy, hv⟩ := Option.bind_eq_some_iff.mp hv
    cases hx : hexValue c with
    | some x =>
      rw [hx] at hv
      cases hv
      exact .pair hx hy (ih hplain.2.2)
    | none =>
      rw [hx] at hv
      rw [if_neg (fun hc => hplain.1 hc.symm)] at hv
      cases hv

theorem hexValue_plus : hexValue '+' = none := by decide

theorem Spells.plain (h : Spells s bytes) : '+' ∉ s := by
  induction h with
  | nil => exact not_mem_nil
  | pair hx hy _ ih =>
    rw [mem_cons, mem_cons, not_or, not_or]
    refine ⟨?_, ?_, ih⟩
    · rintro rfl
      rw [hexValue_plus] at hx
      cases hx
    · rintro rfl
      rw [hexValue_plus] at hy
      cases hy

/-! ### Pairs of characters -/

variable {c : Char}

theorem lt_of_hexValue {x : Fin 16} (h : hexValue c = some x) : c.toNat < 0x80 := by
  have h9 : '9'.toNat = 57 := rfl
  have hf : 'f'.toNat = 102 := rfl
  have hF : 'F'.toNat = 70 := rfl
  rw [hexValue] at h
  split_ifs at h with h1 h2 h3
  · omega
  · omega
  · omega

variable {d : Char}

theorem sizes_of_pairValue {v : UInt8} (h : pairValue c d = some v) :
    c.utf8Size = 1 ∧ d.utf8Size = 1 := by
  obtain ⟨y, hy, hv⟩ := Option.bind_eq_some_iff.mp h
  refine ⟨?_, Utf8.size_eq_one_iff.mpr (lt_of_hexValue hy)⟩
  cases hx : hexValue c with
  | some x => exact Utf8.size_eq_one_iff.mpr (lt_of_hexValue hx)
  | none =>
    rw [hx] at hv
    split_ifs at hv with hc
    rw [hc]
    rfl

def readPairs : List Char → Option (Option (List UInt8))
  | [] => some (some [])
  | [c] => if c.utf8Size ≤ 2 then some none else none
  | c :: d :: rest =>
    if c.utf8Size = 1 ∧ d.utf8Size = 1 then
      match pairValue c d with
      | none => some none
      | some v => (readPairs rest).map (Option.map (v :: ·))
    else if c.utf8Size = 2 then some none
    else none

theorem readPairs_pair {v : UInt8} {rest : List Char} (hv : pairValue c d = some v) :
    readPairs (c :: d :: rest) = (readPairs rest).map (Option.map (v :: ·)) := by
  rw [readPairs, if_pos (sizes_of_pairValue hv), hv]

theorem readPairs_eq_ok : readPairs s = some (some bytes) ↔ Reads s bytes := by
  constructor
  · intro h
    fun_induction readPairs s generalizing bytes with
    | case1 =>
      cases h
      exact .nil
    | case2 c hc => cases h
    | case3 c hc => cases h
    | case4 c d rest hsize hv => cases h
    | case5 c d rest hsize v hv ih =>
      obtain ⟨inner, hinner, hmap⟩ := Option.map_eq_some_iff.mp h
      obtain ⟨bytes', rfl, rfl⟩ := Option.map_eq_some_iff.mp hmap
      exact .pair hv (ih hinner)
    | case6 c d rest hsize hc => cases h
    | case7 c d rest hsize hc => cases h
  · intro h
    induction h with
    | nil => rfl
    | pair hv _ ih => rw [readPairs_pair hv, ih, Option.map_some, Option.map_some]

theorem readPairs_eq_panic : readPairs s = none ↔ Splits s := by
  constructor
  · intro h
    fun_induction readPairs s with
    | case1 => cases h
    | case2 c hc => cases h
    | case3 c hc => exact .wide [] (by omega)
    | case4 c d rest hsize hv => cases h
    | case5 c d rest hsize v hv ih => exact .later hv (ih (Option.map_eq_none_iff.mp h))
    | case6 c d rest hsize hc => cases h
    | case7 c d rest hsize hc =>
      have hpos := c.utf8Size_pos
      have hpos' := d.utf8Size_pos
      by_cases hone : c.utf8Size = 1
      · exact .across rest hone (by omega)
      · exact .wide (d :: rest) (by omega)
  · intro h
    induction h with
    | @wide c rest hc =>
      cases rest with
      | nil => rw [readPairs, if_neg (by omega)]
      | cons d rest => rw [readPairs, if_neg (by omega), if_neg (by omega)]
    | across rest hc hd => rw [readPairs, if_neg (by omega), if_neg (by omega)]
    | later hv _ ih => rw [readPairs_pair hv, ih, Option.map_none]

/-! ### Slices of characters -/

theorem isBoundary_encode (s : List Char) : isBoundary (Utf8.encode s) = true := by
  cases s with
  | nil => rfl
  | cons c s =>
    obtain ⟨b, bs, hbytes, hb, -⟩ := Utf8.utf8EncodeChar_bytes c
    rw [Utf8.encode, flatMap_cons, hbytes, cons_append, isBoundary]
    rw [Utf8.Continues] at hb
    rw [Bool.not_eq_true', Bool.and_eq_false_iff, decide_eq_false_iff_not, decide_eq_false_iff_not]
    exact not_and_or.mp hb

theorem encode_ascii (h : c.toNat < 0x80) (s : List Char) :
    Utf8.encode (c :: s) = UInt8.ofNat c.toNat :: Utf8.encode s := by
  rw [Utf8.encode, flatMap_cons, String.utf8EncodeChar_eq_singleton (Utf8.size_eq_one_iff.mpr h)]
  rfl

theorem encode_wide (h : 2 ≤ c.utf8Size) (s : List Char) :
    ∃ b b' bs, Utf8.encode (c :: s) = b :: b' :: (bs ++ Utf8.encode s) ∧
      0x80 ≤ b.toNat ∧ Utf8.Continues b' ∧ (∀ b'' ∈ bs, Utf8.Continues b'') ∧
      bs.length + 2 = c.utf8Size := by
  obtain ⟨b, bs, hbytes, -, hbs⟩ := Utf8.utf8EncodeChar_bytes c
  have hlead : 0x80 ≤ b.toNat := by
    -- a byte below is a character of its own
    by_contra hlow
    have hback := Utf8.lossy_utf8EncodeChar c []
    have hfirst := Utf8.lossy_append_ascii (show b.toNat < 0x80 by omega) [] bs
    rw [hbytes, append_nil] at hback
    rw [nil_append, hback] at hfirst
    have hc : c = Char.ofNat b.toNat := (List.cons.inj hfirst).1
    have hsize : c.utf8Size = 1 := by
      rw [hc, Utf8.size_eq_one_iff, Utf8.toNat_ofNat]
      split_ifs <;> omega
    omega
  have hlength : bs.length + 1 = c.utf8Size := by
    rw [← String.length_utf8EncodeChar c, hbytes, length_cons]
  cases bs with
  | nil =>
    rw [length_nil] at hlength
    omega
  | cons b' bs =>
    rw [length_cons] at hlength
    obtain ⟨hb', hbs'⟩ := forall_mem_cons.mp hbs
    refine ⟨b, b', bs, ?_, hlead, hb', hbs', by omega⟩
    rw [Utf8.encode, flatMap_cons, hbytes]
    rfl

variable {b : UInt8} {rest : List UInt8}

theorem not_isBoundary (h : Utf8.Continues b) : isBoundary (b :: rest) = false := by
  rw [isBoundary, Bool.not_eq_false', Bool.and_eq_true, decide_eq_true_eq, decide_eq_true_eq]
  exact h

theorem digitOf_ascii (h : c.toNat < 0x80) : digitOf (UInt8.ofNat c.toNat) = hexValue c := by
  rw [digitOf, Utf8.toNat_low (by omega), if_pos h, Char.ofNat_toNat]

theorem digitOf_wide (h : 0x80 ≤ b.toNat) : digitOf b = none := by
  rw [digitOf, if_neg (by omega)]

variable {b' : UInt8}

theorem unsigned_eq_self (h : b ≠ 0x2b) : unsigned [b, b'] = [b, b'] := by
  rw [unsigned]
  rintro d rest ⟨rfl, -⟩
  exact h rfl

theorem numberOf_one (y : Fin 16) : numberOf [y] = some (byteOf 0 y) := by
  revert y
  decide

theorem numberOf_two (x y : Fin 16) : numberOf [x, y] = some (byteOf x y) := by
  have hx := x.isLt
  have hy := y.isLt
  show (if [x, y] ≠ [] ∧ (0 * 16 + x.val) * 16 + y.val < 256 then
    some (UInt8.ofNat ((0 * 16 + x.val) * 16 + y.val)) else none) = _
  rw [if_pos ⟨cons_ne_nil _ _, by omega⟩, Nat.zero_mul, Nat.zero_add]
  rfl

theorem parseU8_ascii (hc : c.toNat < 0x80) (hd : d.toNat < 0x80) :
    parseU8 [UInt8.ofNat c.toNat, UInt8.ofNat d.toNat] = pairValue c d := by
  by_cases hplus : c = '+'
  · subst hplus
    have hsigned : unsigned [UInt8.ofNat '+'.toNat, UInt8.ofNat d.toNat] = [UInt8.ofNat d.toNat] :=
      rfl
    rw [parseU8, hsigned, pairValue, hexValue_plus, mapM_cons, mapM_nil, digitOf_ascii hd]
    cases hexValue d with
    | none => rfl
    | some y => exact numberOf_one y
  · have hhead : UInt8.ofNat c.toNat ≠ 0x2b := by
      intro heq
      have hnat := congrArg UInt8.toNat heq
      rw [Utf8.toNat_low (by omega)] at hnat
      exact hplus (Char.toNat_inj.mp hnat)
    rw [parseU8, unsigned_eq_self hhead, pairValue, mapM_cons, mapM_cons, mapM_nil,
      digitOf_ascii hc, digitOf_ascii hd]
    cases hexValue c with
    | none =>
      cases hexValue d with
      | none => rfl
      | some y => exact (if_neg hplus).symm
    | some x =>
      cases hexValue d with
      | none => rfl
      | some y => exact numberOf_two x y

theorem parseU8_wide (hb : 0x80 ≤ b.toNat) : parseU8 [b, b'] = none := by
  have hhead : b ≠ 0x2b := by
    rintro rfl
    exact absurd hb (by decide)
  rw [parseU8, unsigned_eq_self hhead, mapM_cons, digitOf_wide hb]
  rfl

theorem decodePairs_cut (h : isBoundary rest = false) (n : Nat) :
    decodePairs (n + 1) (b :: b' :: rest) = none := by
  rw [decodePairs, takePair, if_neg]
  rintro ⟨-, -, hrest⟩
  rw [drop_succ_cons, drop_succ_cons, drop_zero, h] at hrest
  cases hrest

theorem decodePairs_slice
    (hstart : isBoundary (b :: b' :: rest) = true) (hstop : isBoundary rest = true) (n : Nat) :
    decodePairs (n + 1) (b :: b' :: rest) =
      match parseU8 [b, b'] with
      | none => some none
      | some v => (decodePairs n rest).map (Option.map (v :: ·)) := by
  have hlength : 2 ≤ (b :: b' :: rest).length := by
    rw [length_cons, length_cons]
    omega
  rw [decodePairs, takePair, if_pos ⟨hlength, hstart, hstop⟩]
  rfl

theorem decodePairs_wide (h : 2 ≤ c.utf8Size) (s : List Char) (n : Nat) :
    decodePairs (n + 1) (Utf8.encode (c :: s)) = if c.utf8Size ≤ 2 then some none else none := by
  have hstart := isBoundary_encode (c :: s)
  obtain ⟨b, b', bs, henc, hlead, -, hbs, hsize⟩ := encode_wide h s
  rw [henc] at hstart ⊢
  cases bs with
  | nil =>
    rw [length_nil] at hsize
    rw [if_pos (by omega)]
    rw [nil_append] at hstart ⊢
    rw [decodePairs_slice hstart (isBoundary_encode s), parseU8_wide hlead]
  | cons b'' bs =>
    rw [length_cons] at hsize
    rw [if_neg (by omega)]
    exact decodePairs_cut (not_isBoundary (hbs b'' mem_cons_self)) n

theorem decodePairs_ascii (hc : c.utf8Size = 1) (s : List Char) (n : Nat) :
    decodePairs (n + 1) (Utf8.encode (c :: d :: s)) =
      if d.utf8Size = 1 then
        match pairValue c d with
        | none => some none
        | some v => (decodePairs n (Utf8.encode s)).map (Option.map (v :: ·))
      else none := by
  have hstart := isBoundary_encode (c :: d :: s)
  rw [encode_ascii (Utf8.size_eq_one_iff.mp hc)] at hstart ⊢
  by_cases hd : d.utf8Size = 1
  · rw [encode_ascii (Utf8.size_eq_one_iff.mp hd)] at hstart ⊢
    rw [if_pos hd, decodePairs_slice hstart (isBoundary_encode s),
      parseU8_ascii (Utf8.size_eq_one_iff.mp hc) (Utf8.size_eq_one_iff.mp hd)]
  · have hpos := d.utf8Size_pos
    obtain ⟨b, b', bs, henc, -, hb', -, -⟩ := encode_wide (show 2 ≤ d.utf8Size by omega) s
    rw [henc, if_neg hd]
    exact decodePairs_cut (not_isBoundary hb') n

theorem length_encode_cons (c : Char) (s : List Char) :
    (Utf8.encode (c :: s)).length = c.utf8Size + (Utf8.encode s).length := by
  rw [Utf8.encode, flatMap_cons, length_append, String.length_utf8EncodeChar]
  rfl

/-- **The reader goes through the characters of a text**, if its bytes are pairs. -/
theorem decodePairs_encode (s : List Char) : ∀ n, (Utf8.encode s).length = 2 * n →
    decodePairs n (Utf8.encode s) = readPairs s := by
  fun_induction readPairs s with
  | case1 =>
    intro n hn
    obtain rfl : n = 0 := by
      rw [show Utf8.encode [] = [] from rfl, length_nil] at hn
      omega
    rfl
  | case2 c hc | case3 c hc =>
    intro n hn
    rw [length_encode_cons, show Utf8.encode [] = [] from rfl, length_nil] at hn
    have hpos := c.utf8Size_pos
    obtain ⟨m, rfl⟩ : ∃ m, n = m + 1 := ⟨n - 1, by omega⟩
    rw [decodePairs_wide (by omega)]
    first
      | rw [if_pos hc]
      | rw [if_neg hc]
  | case4 c d rest hsize hv =>
    intro n hn
    rw [length_encode_cons, length_encode_cons] at hn
    obtain ⟨m, rfl⟩ : ∃ m, n = m + 1 := ⟨n - 1, by omega⟩
    rw [decodePairs_ascii hsize.1, if_pos hsize.2, hv]
  | case5 c d rest hsize v hv ih =>
    intro n hn
    rw [length_encode_cons, length_encode_cons] at hn
    obtain ⟨m, rfl⟩ : ∃ m, n = m + 1 := ⟨n - 1, by omega⟩
    rw [decodePairs_ascii hsize.1, if_pos hsize.2, hv]
    rw [ih m (by omega)]
  | case6 c d rest hsize hc =>
    intro n hn
    rw [length_encode_cons, length_encode_cons] at hn
    obtain ⟨m, rfl⟩ : ∃ m, n = m + 1 := ⟨n - 1, by omega⟩
    rw [decodePairs_wide (by omega), if_pos (by omega)]
  | case7 c d rest hsize hc =>
    intro n hn
    have hpos := c.utf8Size_pos
    have hpos' := d.utf8Size_pos
    rw [length_encode_cons, length_encode_cons] at hn
    obtain ⟨m, rfl⟩ : ∃ m, n = m + 1 := ⟨n - 1, by omega⟩
    by_cases hone : c.utf8Size = 1
    · rw [decodePairs_ascii hone, if_neg (fun hd => hsize ⟨hone, hd⟩)]
    · rw [decodePairs_wide (by omega), if_neg (by omega)]

/-! ### What is read -/

theorem decodePairs_eq_ok {n : Nat} (hn : (Utf8.encode s).length = 2 * n) :
    decodePairs n (Utf8.encode s) = some (some bytes) ↔ Reads s bytes := by
  rw [decodePairs_encode s n hn, readPairs_eq_ok]

theorem decodePairs_eq_panic {n : Nat} (hn : (Utf8.encode s).length = 2 * n) :
    decodePairs n (Utf8.encode s) = none ↔ Splits s := by
  rw [decodePairs_encode s n hn, readPairs_eq_panic]

theorem hexValue_digitChar : ∀ x : Fin 16, hexValue x.val.digitChar = some x := by decide

/-- **Bytes are spelled by their digits.** -/
theorem spells_encode (bytes : List UInt8) : Spells (encode bytes) bytes := by
  induction bytes with
  | nil => exact .nil
  | cons b bytes ih =>
    have hb := b.toNat_lt
    have hhigh := hexValue_digitChar ⟨b.toNat / 16, by omega⟩
    have hlow := hexValue_digitChar ⟨b.toNat % 16, by omega⟩
    have hbyte : byteOf ⟨b.toNat / 16, by omega⟩ ⟨b.toNat % 16, by omega⟩ = b := by
      rw [byteOf, Nat.div_add_mod' b.toNat 16, UInt8.ofNat_toNat]
    have h := Spells.pair hhigh hlow ih
    rw [hbyte] at h
    exact h

theorem Reads.length_encode (h : Reads s bytes) : (Utf8.encode s).length = 2 * bytes.length := by
  induction h with
  | nil => rfl
  | pair hv _ ih =>
    obtain ⟨hc, hd⟩ := sizes_of_pairValue hv
    rw [length_encode_cons, length_encode_cons, ih, hc, hd, length_cons]
    omega

end Modbit.Lib.Hex
