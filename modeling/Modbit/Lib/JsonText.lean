import Modbit.Lib.Json
import Modbit.Lib.Text

/-!
# Reading compact JSON text

Readers for the pieces of a compact JSON text: a quoted string, a number, a fixed part.
A reader takes the characters that are left and gives a value with the characters after
it.  Each `read…_append` says that a piece is read back as it was written.
-/

namespace Modbit.Lib.JsonText

open List

def unescape (c : Char) : Char :=
  if c = 'b' then Char.ofNat 0x08
  else if c = 'f' then Char.ofNat 0x0c
  else if c = 'n' then '\n'
  else if c = 'r' then '\r'
  else if c = 't' then '\t'
  else c

def hexValue (c : Char) : Nat :=
  if c.toNat < 0x3a then c.toNat - 0x30 else c.toNat - 0x57

def readBody : List Char → Option (List Char × List Char)
  | [] => none
  | '\x22' :: rest => some ([], rest)
  | '\\' :: 'u' :: _ :: _ :: h :: l :: rest =>
    (readBody rest).map (fun r => (Char.ofNat (16 * hexValue h + hexValue l) :: r.1, r.2))
  | '\\' :: c :: rest => (readBody rest).map (fun r => (unescape c :: r.1, r.2))
  | c :: rest => (readBody rest).map (fun r => (c :: r.1, r.2))

def quoted (s : String) : List Char := '\x22' :: s.toList.flatMap Json.escapeChar ++ ['\x22']

def readQuoted : List Char → Option (String × List Char)
  | '\x22' :: l => (readBody l).map (fun r => (String.ofList r.1, r.2))
  | _ => none

def readNat (l : List Char) : Option (Nat × List Char) :=
  match l.takeWhile Char.isDigit with
  | [] => none
  | ds => some (Nat.ofDigitChars 10 ds 0, l.dropWhile Char.isDigit)

def intChars : Int → List Char
  | .ofNat n => Nat.toDigits 10 n
  | .negSucc n => '-' :: Nat.toDigits 10 (n + 1)

def readInt : List Char → Option (Int × List Char)
  | '-' :: l => (readNat l).map (fun r => (-(r.1 : Int), r.2))
  | l => (readNat l).map (fun r => ((r.1 : Int), r.2))

def readLit (lit l : List Char) : Option (List Char) :=
  if lit.isPrefixOf l then some (l.drop lit.length) else none

/-! ### Round trips -/

theorem control_chars : ∀ n < 0x20,
    Char.ofNat (16 * hexValue (n / 16).digitChar + hexValue (n % 16).digitChar) = Char.ofNat n := by
  decide

theorem escapeChar_cases (c : Char) :
    (Json.escapeChar c = [c] ∧ 0x20 ≤ c.toNat ∧ c ≠ '\x22' ∧ c ≠ '\\')
    ∨ (∃ d, Json.escapeChar c = ['\\', d] ∧ 0x20 ≤ d.toNat ∧ d ≠ 'u' ∧ unescape d = c)
    ∨ (Json.escapeChar c
        = ['\\', 'u', '0', '0', (c.toNat / 16).digitChar, (c.toNat % 16).digitChar]
      ∧ c.toNat < 0x20) := by
  have hof : ∀ n, c.toNat = n → c = Char.ofNat n := fun n hn => by rw [← hn, Char.ofNat_toNat]
  generalize hescape : Json.escapeChar c = e
  unfold Json.escapeChar at hescape
  split_ifs at hescape with hquote hslash hb hf hn hr ht hctl
  all_goals subst hescape
  · exact .inr (.inl ⟨c, rfl, by omega, by rw [hof _ hquote]; decide, by rw [hof _ hquote]; decide⟩)
  · exact .inr (.inl ⟨c, rfl, by omega, by rw [hof _ hslash]; decide, by rw [hof _ hslash]; decide⟩)
  · exact .inr (.inl ⟨'b', rfl, by decide, by decide, (hof _ hb).symm⟩)
  · exact .inr (.inl ⟨'f', rfl, by decide, by decide, (hof _ hf).symm⟩)
  · exact .inr (.inl ⟨'n', rfl, by decide, by decide, (hof _ hn).symm⟩)
  · exact .inr (.inl ⟨'r', rfl, by decide, by decide, (hof _ hr).symm⟩)
  · exact .inr (.inl ⟨'t', rfl, by decide, by decide, (hof _ ht).symm⟩)
  · exact .inr (.inr ⟨rfl, hctl⟩)
  · exact .inl ⟨rfl, by omega, fun he => hquote (he ▸ rfl), fun he => hslash (he ▸ rfl)⟩

theorem readBody_escapeChar (c : Char) (rest : List Char) :
    readBody (Json.escapeChar c ++ rest) = (readBody rest).map (fun r => (c :: r.1, r.2)) := by
  rcases escapeChar_cases c with ⟨heq, -, hquote, hslash⟩ | ⟨d, heq, -, hu, hd⟩ | ⟨heq, hctl⟩
  · rw [heq]
    show readBody (c :: rest) = _
    rw [readBody]
    · exact hquote
    · intro _ _ _ _ _ he
      exact absurd he hslash
    · intro _ _ he
      exact absurd he hslash
  · rw [heq]
    show readBody ('\\' :: d :: rest) = _
    rw [readBody, hd]
    -- only a `u` begins the longer escape
    intro _ _ _ _ _ he
    exact absurd he hu
  · have hread := control_chars c.toNat hctl
    rw [Char.ofNat_toNat] at hread
    rw [heq]
    show Option.map _ (readBody rest) = _
    simp only [hread]

theorem readBody_append (s rest : List Char) :
    readBody (s.flatMap Json.escapeChar ++ '\x22' :: rest) = some (s, rest) := by
  induction s with
  | nil => rfl
  | cons c s ih =>
    rw [flatMap_cons, append_assoc, readBody_escapeChar, ih]
    rfl

theorem readQuoted_append (s : String) (rest : List Char) :
    readQuoted (quoted s ++ rest) = some (s, rest) := by
  have hshape : quoted s ++ rest = '\x22' :: (s.toList.flatMap Json.escapeChar ++ '\x22' :: rest) := by
    simp [quoted]
  rw [hshape, readQuoted, readBody_append, Option.map_some, String.ofList_toList]

/-- What follows a number does not continue it. -/
def Stops (rest : List Char) : Prop := ∀ c ∈ rest.head?, c.isDigit = false

theorem readNat_append (n : Nat) {rest : List Char} (h : Stops rest) :
    readNat (Nat.toDigits 10 n ++ rest) = some (n, rest) := by
  have hall : ∀ c ∈ Nat.toDigits 10 n, c.isDigit = true :=
    fun c hc => Nat.isDigit_of_mem_toDigits (by decide) (by decide) hc
  have hrest : rest.takeWhile Char.isDigit = [] ∧ rest.dropWhile Char.isDigit = rest := by
    cases rest with
    | nil => exact ⟨rfl, rfl⟩
    | cons c rest =>
      have hc : c.isDigit = false := h c rfl
      rw [takeWhile_cons_of_neg (by simp [hc]), dropWhile_cons_of_neg (by simp [hc])]
      exact ⟨rfl, rfl⟩
  have htake : (Nat.toDigits 10 n ++ rest).takeWhile Char.isDigit = Nat.toDigits 10 n := by
    rw [takeWhile_append_of_pos hall, hrest.1, append_nil]
  have hdrop : (Nat.toDigits 10 n ++ rest).dropWhile Char.isDigit = rest := by
    rw [dropWhile_append_of_pos hall, hrest.2]
  rw [readNat, htake, hdrop]
  split
  · next hnil => exact absurd hnil Nat.toDigits_ne_nil
  · rw [Nat.ofDigitChars_ten_toDigits]

theorem readInt_append (i : Int) {rest : List Char} (h : Stops rest) :
    readInt (intChars i ++ rest) = some (i, rest) := by
  cases i with
  | ofNat n =>
    have hminus : ∀ l, Nat.toDigits 10 n ++ rest ≠ '-' :: l := by
      intro l he
      obtain ⟨d, ds, hds⟩ := exists_cons_of_ne_nil (Nat.toDigits_ne_nil (b := 10) (n := n))
      rw [hds, cons_append] at he
      have hd := Text.not_mem_toDigits (c := '-') (by decide) n
      rw [hds, (List.cons.inj he).1] at hd
      exact hd mem_cons_self
    show readInt (Nat.toDigits 10 n ++ rest) = _
    rw [readInt, readNat_append n h]
    · rfl
    · exact hminus
  | negSucc n =>
    show (readNat (Nat.toDigits 10 (n + 1) ++ rest)).map _ = _
    rw [readNat_append (n + 1) h]
    rfl

theorem readLit_append (lit rest : List Char) : readLit lit (lit ++ rest) = some rest := by
  rw [readLit, if_pos (List.isPrefixOf_iff_prefix.mpr (prefix_append lit rest)), drop_left]

end Modbit.Lib.JsonText
