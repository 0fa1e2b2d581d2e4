import Mathlib.Algebra.Ring.Int.Parity
import Mathlib.Data.List.Basic

/-!
# Text helpers

The string operations of the Rust standard library that the modelled code calls,
on the characters of a text: `splitOnce`, `parseU32`, `trimEndMatches`, `trim`,
`split`, `startsWith`, and `debugStr` for the quoted text of `{:?}`.

`parseU32_toDigits` and `splitOnce_append` are the round trip of a number printed
in front of a separator.  `splitOn_prefix_iff` is what a comparison of two paths
cut at their slashes means for the texts: one is the other, or goes on after it
with a slash.
-/

namespace Modbit.Lib.Text

open List

/-! ### Numbers -/

/-- The text before and after the first `c`. -/
def splitOnce (c : Char) : List Char → Option (List Char × List Char)
  | [] => none
  | d :: l => if d = c then some ([], l) else (splitOnce c l).map (fun p => (d :: p.1, p.2))

/-- The text before and after the last `c`. -/
def rsplitOnce (c : Char) (l : List Char) : Option (List Char × List Char) :=
  (splitOnce c l.reverse).map (fun p => (p.2.reverse, p.1.reverse))

/-- An unsigned 32-bit number in decimal, with an optional `+`. -/
def parseU32 (l : List Char) : Option UInt32 :=
  let ds := match l with
    | '+' :: d :: rest => d :: rest
    | l => l
  if ds ≠ [] ∧ ds.all Char.isDigit then
    if Nat.ofDigitChars 10 ds 0 < 2 ^ 32 then
      some (UInt32.ofNat (Nat.ofDigitChars 10 ds 0))
    else none
  else none

variable {c : Char}

theorem splitOnce_append (l₁ l₂ : List Char) (h : c ∉ l₁) :
    splitOnce c (l₁ ++ c :: l₂) = some (l₁, l₂) := by
  induction l₁ with
  | nil => simp [splitOnce]
  | cons d l₁ ih =>
    have hd : d ≠ c := fun he => h (by simp [he])
    rw [cons_append, splitOnce, if_neg hd, ih (fun hm => h (mem_cons_of_mem d hm))]
    rfl

theorem append_of_splitOnce : ∀ {l a b : List Char},
    splitOnce c l = some (a, b) → l = a ++ c :: b := by
  intro l
  induction l with
  | nil => intro a b h; cases h
  | cons d l ih =>
    intro a b h
    rw [splitOnce] at h
    split_ifs at h with hd
    · obtain ⟨rfl, rfl⟩ := Prod.mk.inj (Option.some.inj h)
      rw [hd, nil_append]
    · obtain ⟨p, hp, he⟩ := Option.map_eq_some_iff.mp h
      obtain ⟨rfl, rfl⟩ := Prod.mk.inj he
      rw [ih hp, cons_append]

theorem append_of_rsplitOnce {l a b : List Char} (h : rsplitOnce c l = some (a, b)) :
    l = a ++ c :: b := by
  obtain ⟨p, hp, he⟩ := Option.map_eq_some_iff.mp h
  obtain ⟨rfl, rfl⟩ := Prod.mk.inj he
  have hrev := congrArg List.reverse (append_of_splitOnce hp)
  rw [reverse_reverse] at hrev
  rw [hrev]
  simp

theorem not_mem_toDigits (hc : c.isDigit = false) (n : Nat) : c ∉ Nat.toDigits 10 n := by
  intro hm
  have := Nat.isDigit_of_mem_toDigits (by decide) (by decide) hm
  rw [hc] at this
  cases this

theorem isDigit_toDigits (n : Nat) : ∀ c ∈ Nat.toDigits 10 n, c.isDigit = true := fun _ hc =>
  Nat.isDigit_of_mem_toDigits (by decide) (by decide) hc

theorem unsigned_toDigits (n : Nat) : (match Nat.toDigits 10 n with
    | '+' :: d :: rest => d :: rest
    | l => l) = Nat.toDigits 10 n := by
  split
  · next d rest he => exact absurd (he ▸ mem_cons_self) (not_mem_toDigits (by decide) n)
  · rfl

/-- **A printed 32-bit number parses back to itself.** -/
theorem parseU32_toDigits (n : UInt32) : parseU32 (Nat.toDigits 10 n.toNat) = some n := by
  simp only [parseU32]
  rw [unsigned_toDigits, if_pos ⟨Nat.toDigits_ne_nil, all_eq_true.mpr (isDigit_toDigits n.toNat)⟩,
    Nat.ofDigitChars_ten_toDigits, if_pos n.toNat_lt, UInt32.ofNat_toNat]

/-- `usize::from_str`, of 64 bits. -/
def parseUsize (l : List Char) : Option Nat :=
  let ds := match l with
    | '+' :: d :: rest => d :: rest
    | l => l
  if ds ≠ [] ∧ ds.all Char.isDigit ∧ Nat.ofDigitChars 10 ds 0 < 2 ^ 64 then
    some (Nat.ofDigitChars 10 ds 0)
  else none

theorem parseUsize_toDigits {n : Nat} (h : n < 2 ^ 64) :
    parseUsize (Nat.toDigits 10 n) = some n := by
  simp only [parseUsize]
  rw [unsigned_toDigits, Nat.ofDigitChars_ten_toDigits,
    if_pos ⟨Nat.toDigits_ne_nil, all_eq_true.mpr (isDigit_toDigits n), h⟩]

/-- A signed 64-bit number in decimal, with an optional sign. -/
def parseI64 (l : List Char) : Option Int :=
  let (negative, ds) := match l with
    | '+' :: d :: rest => (false, d :: rest)
    | '-' :: d :: rest => (true, d :: rest)
    | l => (false, l)
  if ds ≠ [] ∧ ds.all Char.isDigit then
    let n : Int := Nat.ofDigitChars 10 ds 0
    let v := if negative then -n else n
    if -2 ^ 63 ≤ v ∧ v < 2 ^ 63 then some v else none
  else none

variable {l : List Char}

theorem parseI64_digits (hne : l ≠ []) (hdigits : ∀ c ∈ l, c.isDigit = true)
    (h : Nat.ofDigitChars 10 l 0 < 2 ^ 63) : parseI64 l = some (Nat.ofDigitChars 10 l 0 : Int) := by
  have hds : ∀ l : List Char, (∀ c ∈ l, c.isDigit = true) → (match l with
      | '+' :: d :: rest => (false, d :: rest)
      | '-' :: d :: rest => (true, d :: rest)
      | l => (false, l)) = (false, l) := by
    intro l hl
    split
    · exact absurd (hl '+' mem_cons_self) (by decide)
    · exact absurd (hl '-' mem_cons_self) (by decide)
    · rfl
  have hrange : -2 ^ 63 ≤ (Nat.ofDigitChars 10 l 0 : Int)
      ∧ (Nat.ofDigitChars 10 l 0 : Int) < 2 ^ 63 := by
    omega
  simp only [parseI64]
  rw [hds l hdigits]
  rw [if_pos ⟨hne, all_eq_true.mpr hdigits⟩, if_neg Bool.false_ne_true, if_pos hrange]

theorem parseI64_toDigits {n : Nat} (h : n < 2 ^ 63) :
    parseI64 (Nat.toDigits 10 n) = some (n : Int) := by
  have hvalue : Nat.ofDigitChars 10 (Nat.toDigits 10 n) 0 = n := Nat.ofDigitChars_ten_toDigits
  have hparse := parseI64_digits Nat.toDigits_ne_nil (isDigit_toDigits n) (hvalue.symm ▸ h)
  rwa [hvalue] at hparse

/-! ### Trimming and splitting -/

/-- Unicode `White_Space`. -/
def isWhitespace (c : Char) : Bool :=
  (0x09 ≤ c.toNat && c.toNat ≤ 0x0d) || c.toNat == 0x20 || c.toNat == 0x85 || c.toNat == 0xa0
    || c.toNat == 0x1680 || (0x2000 ≤ c.toNat && c.toNat ≤ 0x200a) || c.toNat == 0x2028
    || c.toNat == 0x2029 || c.toNat == 0x202f || c.toNat == 0x205f || c.toNat == 0x3000

def dropEndWhile (p : Char → Bool) (l : List Char) : List Char := (l.reverse.dropWhile p).reverse

def trim (s : String) : String :=
  String.ofList (dropEndWhile isWhitespace (s.toList.dropWhile isWhitespace))

/-- `trim` on the characters. -/
def trimChars (l : List Char) : List Char := dropEndWhile isWhitespace (l.dropWhile isWhitespace)

def stripCr (l : List Char) : List Char := if l.getLast? = some '\r' then l.dropLast else l

theorem not_mem_stripCr (h : c ∉ l) : c ∉ stripCr l := by
  rw [stripCr]
  split_ifs
  · exact fun hmem => h ((dropLast_sublist l).subset hmem)
  · exact h

/-- Lines from the pieces between newlines: a last piece ended by no newline is a line
only if there is something in it. -/
def linesOf : List (List Char) → List (List Char)
  | [] => []
  | [last] => if last = [] then [] else [last]
  | piece :: pieces => stripCr piece :: linesOf pieces

def lines (l : List Char) : List (List Char) := linesOf (l.splitOn '\n')

theorem lines_line (h : '\n' ∉ l) (rest : List Char) :
    lines (l ++ '\n' :: rest) = stripCr l :: lines rest := by
  obtain ⟨piece, pieces, hne⟩ := exists_cons_of_ne_nil (splitOn_ne_nil '\n' rest)
  rw [lines, lines, splitOn_append_cons_self_of_not_mem h, hne, linesOf]
  exact fun h => cons_ne_nil _ _ h

theorem lines_last (h : '\n' ∉ l) : lines l = if l = [] then [] else [l] := by
  rw [lines, splitOn_eq_singleton h]
  rfl

/-- Lines are read back from a text in which a newline ends each, and what follows the last
newline is one more. -/
theorem lines_unlines {ls : List (List Char)} {tail : List Char}
    (hls : ∀ l ∈ ls, '\n' ∉ l ∧ '\r' ∉ l) (htail : '\n' ∉ tail) :
    lines (ls.flatMap (· ++ ['\n']) ++ tail) = ls ++ if tail = [] then [] else [tail] := by
  induction ls with
  | nil => exact lines_last htail
  | cons l ls ih =>
    have hl := hls l mem_cons_self
    have hstrip : stripCr l = l := by
      rw [stripCr, if_neg]
      exact fun h => hl.2 (mem_of_getLast? h)
    rw [flatMap_cons, append_assoc, append_assoc, singleton_append,
      lines_line hl.1, hstrip, ih (fun l' hl' => hls l' (mem_cons_of_mem l hl')), cons_append]

theorem forall_of_all {p : Char → Prop} [DecidablePred p]
    (h : l.all (fun c => decide (p c)) = true) : ∀ c ∈ l, p c :=
  fun c hc => of_decide_eq_true (all_eq_true.mp h c hc)

def trimEndMatches (c : Char) (s : String) : String :=
  String.ofList (dropEndWhile (· == c) s.toList)

def splitWhitespace (s : String) : List String :=
  ((s.toList.splitOnP isWhitespace).filter (· ≠ [])).map String.ofList

/-- The pieces between the `c`s; a text without `c` is one piece. -/
def split (c : Char) (s : String) : List String := (s.toList.splitOn c).map String.ofList

def startsWith (s lead : String) : Bool := lead.toList.isPrefixOf s.toList

/-- A character inside the quotes of `{:?}`.  Every character above `U+009F` is shown as it is,
also the few that Unicode counts as not printable. -/
def debugChar (c : Char) : List Char :=
  if c = '\x22' then ['\\', c]
  else if c = '\\' then ['\\', c]
  else if c = '\n' then ['\\', 'n']
  else if c = '\r' then ['\\', 'r']
  else if c = '\t' then ['\\', 't']
  else if c.toNat = 0 then ['\\', '0']
  else if c.toNat < 0x20 ∨ (0x7f ≤ c.toNat ∧ c.toNat < 0xa0) then
    ['\\', 'u', '\x7b'] ++ Nat.toDigits 16 c.toNat ++ ['\x7d']
  else [c]

def debugStr (s : String) : String :=
  "\x22" ++ String.ofList (s.toList.flatMap debugChar) ++ "\x22"

theorem mem_intercalate {c d : Char} {ls : List (List Char)} (h : d ∈ [c].intercalate ls) :
    d = c ∨ ∃ l ∈ ls, d ∈ l := by
  induction ls with
  | nil => cases h
  | cons l ls ih =>
    by_cases hls : ls = []
    · rw [hls, intercalate_singleton] at h
      exact Or.inr ⟨l, mem_cons_self, h⟩
    · rw [intercalate_cons_of_ne_nil hls] at h
      rcases mem_append.mp h with h | h
      · rcases mem_append.mp h with h | h
        · exact Or.inr ⟨l, mem_cons_self, h⟩
        · exact Or.inl (mem_singleton.mp h)
      · rcases ih h with hsep | ⟨l', hl', hmem⟩
        · exact Or.inl hsep
        · exact Or.inr ⟨l', mem_cons_of_mem l hl', hmem⟩

theorem intercalate_append : ∀ {l m : List (List Char)}, l ≠ [] → m ≠ [] →
    [c].intercalate (l ++ m) = [c].intercalate l ++ c :: [c].intercalate m := by
  intro l
  induction l with
  | nil => intro m hl _; exact absurd rfl hl
  | cons p ps ih =>
    intro m _ hm
    cases ps with
    | nil =>
      rw [singleton_append, intercalate_cons_of_ne_nil hm, intercalate_singleton,
        append_assoc, singleton_append]
    | cons q qs =>
      rw [cons_append, intercalate_cons_of_ne_nil (by simp), ih (by simp) hm,
        intercalate_cons_of_ne_nil (l := p) (by simp)]
      simp only [append_assoc]

/-- **One text is another or continues it after a `c` exactly when its pieces
continue the other's.** -/
theorem splitOn_prefix_iff (c : Char) (l₁ l₂ : List Char) :
    l₁.splitOn c <+: l₂.splitOn c ↔ l₁ = l₂ ∨ (l₁ ++ [c]) <+: l₂ := by
  have hjoin : ∀ l : List Char, [c].intercalate (l.splitOn c) = l :=
    fun _ => intercalate_splitOn c
  constructor
  · rintro ⟨rest, hrest⟩
    by_cases hr : rest = []
    · subst hr
      rw [append_nil] at hrest
      refine Or.inl ?_
      rw [← hjoin l₁, hrest, hjoin]
    · refine Or.inr ⟨[c].intercalate rest, ?_⟩
      rw [← hjoin l₂, ← hrest, intercalate_append (splitOn_ne_nil c l₁) hr, hjoin,
        append_assoc, singleton_append]
  · rintro (rfl | ⟨rest, rfl⟩)
    · exact prefix_refl _
    · rw [append_assoc, singleton_append, splitOn_append_cons_self]
      exact prefix_append _ _

end Modbit.Lib.Text
