import Modbit.Lib.Hex
import Modbit.Lib.Text
import Modbit.Lib.Utf8
import Mathlib.Data.List.Lex
import Mathlib.Data.String.Basic
import Mathlib.Order.Fin.Basic

/-!
# The status of a worktree as text

`git status --porcelain=v1` prints an entry a line, two status characters, a space and the path,
which is in quotes where it is unusual.  `statusPorcelain` reads the output back, once the whole
of it has been trimmed: the first entry loses its leading space.

`status_round_trip_iff` says for which entries what is read is what was printed.
-/

namespace Modbit

open Lib List

namespace Git

/-! ### What git prints -/

abbrev FileName := List (Fin 256)

def octal (b : Fin 256) : List Char :=
  ['\\', (b.val / 64).digitChar, (b.val / 8 % 8).digitChar, (b.val % 8).digitChar]

def quoteByte (b : Fin 256) : List Char :=
  match b.val with
  | 7 => ['\\', 'a']
  | 8 => ['\\', 'b']
  | 9 => ['\\', 't']
  | 10 => ['\\', 'n']
  | 11 => ['\\', 'v']
  | 12 => ['\\', 'f']
  | 13 => ['\\', 'r']
  | 34 => ['\\', '\x22']
  | 92 => ['\\', '\\']
  | n => if n < 32 ∨ 127 ≤ n then octal b else [Char.ofNat n]

/-- A name as git prints it: in quotes if it has a control character, a quote, a backslash or a
byte that is not ASCII. -/
def printName (name : FileName) : List Char :=
  if name.any (fun b => (quoteByte b).length ≠ 1) then
    '\x22' :: name.flatMap quoteByte ++ ['\x22']
  else name.map (fun b => Char.ofNat b.val)

inductive StatusCode where
  | unmodified | modified | typeChanged | added | deleted | renamed | copied | unmerged
  | untracked | ignored
  deriving DecidableEq

def StatusCode.char : StatusCode → Char
  | .unmodified => ' '
  | .modified => 'M'
  | .typeChanged => 'T'
  | .added => 'A'
  | .deleted => 'D'
  | .renamed => 'R'
  | .copied => 'C'
  | .unmerged => 'U'
  | .untracked => '?'
  | .ignored => '!'

structure StatusEntry where
  x : StatusCode
  y : StatusCode
  path : String
  deriving DecidableEq

instance neZero_byte : NeZero 256 := ⟨by decide⟩

def nameBytes (path : String) : FileName :=
  (Utf8.encode path.toList).map (fun b => Fin.ofNat 256 b.toNat)

def printPath (path : String) : List Char :=
  let name := nameBytes path
  if 32 ∈ name ∧ ¬ name.any (fun b => (quoteByte b).length ≠ 1) then
    '\x22' :: name.flatMap quoteByte ++ ['\x22']
  else printName name

def StatusEntry.line (e : StatusEntry) : List Char :=
  e.x.char :: e.y.char :: ' ' :: printPath e.path

def printStatus (entries : List StatusEntry) : List UInt8 :=
  Utf8.encode (entries.flatMap (fun e => e.line ++ ['\n']))

/-! ### What is read -/

def stdoutText (stdout : List UInt8) : List Char := Text.trimChars (Utf8.lossy stdout)

/-- The characters before a byte offset and from it on; `none` is a panic, at an offset inside a
character or behind the end. -/
def cutBytes : Nat → List Char → Option (List Char × List Char)
  | 0, l => some ([], l)
  | _ + 1, [] => none
  | n + 1, c :: l =>
    if c.utf8Size ≤ n + 1 then (cutBytes (n + 1 - c.utf8Size) l).map (fun p => (c :: p.1, p.2))
    else none

def statusLine (line : List Char) : Option (Option (String × String)) :=
  if (Utf8.encode line).length < 4 then some none
  else
    (cutBytes 2 line).bind (fun xy => (cutBytes 3 line).map (fun path =>
      some (String.ofList xy.1, String.ofList path.2)))

/-- `status_porcelain` on the output of git; `none` is a panic. -/
def statusPorcelain (stdout : List UInt8) : Option (List (String × String)) :=
  ((Text.lines (stdoutText stdout)).mapM statusLine).map (fun entries => entries.filterMap id)

def StatusEntry.pair (e : StatusEntry) : String × String :=
  (String.ofList [e.x.char, e.y.char], e.path)

/-! ### Printed paths -/

/-- Neither a control character nor outside ASCII. -/
def Printable (c : Char) : Prop := 0x20 ≤ c.toNat ∧ c.toNat < 0x7f

/-- A path that is printed as it is: printable characters without space, quote and backslash. -/
def PlainPath (path : String) : Prop :=
  ∀ c ∈ path.toList, 0x20 < c.toNat ∧ c.toNat < 0x7f ∧ c ≠ '"' ∧ c ≠ '\\'

instance (c : Char) : Decidable (Printable c) := inferInstanceAs (Decidable (_ ∧ _))

instance (path : String) : Decidable (PlainPath path) := List.decidableBAll _ _

theorem quoteByte_spec : ∀ b : Fin 256,
    ((quoteByte b).all (fun c => decide (Printable c)) = true ∧ quoteByte b ≠ []) ∧
      ((quoteByte b).length = 1 ↔ 0x20 ≤ b.val ∧ b.val < 0x7f ∧ b.val ≠ 0x22 ∧ b.val ≠ 0x5c) := by
  decide +kernel

theorem printable_quoteByte (b : Fin 256) : ∀ c ∈ quoteByte b, Printable c :=
  Text.forall_of_all (quoteByte_spec b).1.1

theorem length_quoteByte (b : Fin 256) :
    (quoteByte b).length = 1 ↔ 0x20 ≤ b.val ∧ b.val < 0x7f ∧ b.val ≠ 0x22 ∧ b.val ≠ 0x5c :=
  (quoteByte_spec b).2

theorem toNat_byte (b : Fin 256) : (Char.ofNat b.val).toNat = b.val := by
  rw [Utf8.toNat_ofNat, if_pos (Or.inl (by omega))]

theorem printable_byte (b : Fin 256) (hlow : 0x20 ≤ b.val) (hhigh : b.val < 0x7f) :
    Printable (Char.ofNat b.val) := by
  rw [Printable, toNat_byte]
  exact ⟨hlow, hhigh⟩

theorem printable_quoted (name : FileName) :
    ∀ c ∈ '\x22' :: name.flatMap quoteByte ++ ['\x22'], Printable c := by
  intro c hc
  rw [cons_append, mem_cons, mem_append, mem_singleton] at hc
  rcases hc with rfl | hc | rfl
  · decide
  · obtain ⟨b, -, hb⟩ := mem_flatMap.mp hc
    exact printable_quoteByte b c hb
  · decide

theorem printName_cases (name : FileName) :
    printName name = '\x22' :: name.flatMap quoteByte ++ ['\x22'] ∨
    (printName name = name.map (fun b => Char.ofNat b.val) ∧
      ∀ b ∈ name, 0x20 ≤ b.val ∧ b.val < 0x7f ∧ b.val ≠ 0x22 ∧ b.val ≠ 0x5c) := by
  rw [printName]
  split_ifs with hquote
  · exact .inl rfl
  · refine .inr ⟨rfl, fun b hb => (length_quoteByte b).mp ?_⟩
    rw [Bool.not_eq_true, any_eq_false] at hquote
    by_contra hne
    exact hquote b hb (decide_eq_true hne)

theorem printable_printName (name : FileName) : ∀ c ∈ printName name, Printable c := by
  intro c hc
  rcases printName_cases name with heq | ⟨heq, hplain⟩
  · exact printable_quoted name c (heq ▸ hc)
  · rw [heq] at hc
    obtain ⟨b, hb, rfl⟩ := mem_map.mp hc
    exact printable_byte b (hplain b hb).1 (hplain b hb).2.1

theorem printPath_cases (path : String) :
    printPath path = '\x22' :: (nameBytes path).flatMap quoteByte ++ ['\x22'] ∨
    (printPath path = (nameBytes path).map (fun b => Char.ofNat b.val) ∧
      ∀ b ∈ nameBytes path, 0x20 < b.val ∧ b.val < 0x7f ∧ b.val ≠ 0x22 ∧ b.val ≠ 0x5c) := by
  rw [printPath]
  by_cases hspace : 32 ∈ nameBytes path
  · left
    by_cases hquote : (nameBytes path).any (fun b => (quoteByte b).length ≠ 1) = true
    · rw [if_neg (fun h => h.2 hquote), printName, if_pos hquote]
    · exact if_pos ⟨hspace, hquote⟩
  · rw [if_neg (fun h => hspace h.1)]
    refine (printName_cases (nameBytes path)).imp_right (And.imp_right fun hplain b hb => ?_)
    obtain ⟨hlow, hrest⟩ := hplain b hb
    refine ⟨?_, hrest⟩
    by_contra hle
    have heq : b = 32 := Fin.ext (by omega)
    exact hspace (heq ▸ hb)

theorem printable_printPath (path : String) : ∀ c ∈ printPath path, Printable c := by
  intro c hc
  rw [printPath] at hc
  split_ifs at hc
  · exact printable_quoted _ c hc
  · exact printable_printName _ c hc

variable {c : Char}

theorem isWhitespace_printable (h : Printable c) : Text.isWhitespace c = true ↔ c = ' ' := by
  obtain ⟨hlow, hhigh⟩ := h
  constructor
  · intro hws
    rw [Text.isWhitespace] at hws
    simp only [Bool.or_eq_true, Bool.and_eq_true, decide_eq_true_eq, beq_iff_eq] at hws
    have h32 : c.toNat = 0x20 := by omega
    exact Char.toNat_inj.mp h32
  · rintro rfl
    decide

variable {l : List Char}

theorem encode_ne_nil (h : l ≠ []) : Utf8.encode l ≠ [] := by
  obtain ⟨c, l, rfl⟩ := exists_cons_of_ne_nil h
  obtain ⟨b, bs, hbytes, -⟩ := Utf8.utf8EncodeChar_bytes c
  rw [Utf8.encode, flatMap_cons, hbytes]
  exact cons_ne_nil _ _

variable {path : String}

theorem ends_printPath (h : path ≠ "") :
    ∃ c l, printPath path = c :: l ∧ c ≠ ' ' ∧ ∃ d l', printPath path = l' ++ [d] ∧ d ≠ ' ' := by
  rcases printPath_cases path with heq | ⟨heq, hplain⟩
  · exact ⟨'"', _, heq, by decide, '"', _, heq, by decide⟩
  · have hne : nameBytes path ≠ [] := by
      rw [nameBytes, Ne, map_eq_nil_iff]
      refine encode_ne_nil (fun hnil => h ?_)
      rw [← String.toList_inj, hnil]
      rfl
    have hchar : ∀ b ∈ nameBytes path, Char.ofNat b.val ≠ ' ' := by
      intro b hb hspace
      have hval := congrArg Char.toNat hspace
      rw [toNat_byte] at hval
      have hlow := (hplain b hb).1
      rw [hval] at hlow
      exact absurd hlow (by decide)
    obtain ⟨b, bs, hcons⟩ := exists_cons_of_ne_nil hne
    refine ⟨Char.ofNat b.val, bs.map (fun b => Char.ofNat b.val), ?_,
      hchar b (by rw [hcons]; exact mem_cons_self), Char.ofNat ((nameBytes path).getLast hne).val,
      (nameBytes path).dropLast.map (fun b => Char.ofNat b.val), ?_,
      hchar _ (getLast_mem hne)⟩
    · rw [heq, hcons, map_cons]
    · have hsplit := congrArg (List.map (fun b : Fin 256 => Char.ofNat b.val))
        (dropLast_append_getLast hne)
      rw [map_append, map_singleton] at hsplit
      rw [heq, hsplit]

/-! ### Plain paths -/

theorem nameBytes_ascii (h : ∀ c ∈ path.toList, c.toNat < 0x80) :
    nameBytes path = path.toList.map (fun c => Fin.ofNat 256 c.toNat) := by
  rw [nameBytes]
  generalize path.toList = l at h
  induction l with
  | nil => rfl
  | cons c l ih =>
    obtain ⟨hc, hl⟩ := forall_mem_cons.mp h
    rw [Hex.encode_ascii hc, map_cons, map_cons, ih hl, Utf8.toNat_low (by omega)]

/-- **A path is printed as it is exactly when it is plain.** -/
theorem printPath_eq_iff : printPath path = path.toList ↔ PlainPath path := by
  constructor
  · intro h c hc
    have hprintable := printable_printPath path
    rw [h] at hprintable
    have hascii : ∀ c ∈ path.toList, c.toNat < 0x80 := fun c hc => by
      have hhigh := (hprintable c hc).2
      omega
    rcases printPath_cases path with heq | ⟨-, hplain⟩
    · -- in quotes it would be longer
      have hlength : (nameBytes path).length ≤ ((nameBytes path).flatMap quoteByte).length := by
        generalize nameBytes path = name
        induction name with
        | nil => exact Nat.le_refl 0
        | cons b name ih =>
          have hpos := length_pos_iff.mpr (quoteByte_spec b).1.2
          rw [flatMap_cons, length_append, length_cons]
          omega
      have hname : (nameBytes path).length = path.toList.length := by
        rw [nameBytes_ascii hascii, length_map]
      have hlengths := congrArg List.length (heq.symm.trans h)
      rw [length_append, length_cons, length_singleton] at hlengths
      omega
    · have hmem : Fin.ofNat 256 c.toNat ∈ nameBytes path := by
        rw [nameBytes_ascii hascii]
        exact mem_map_of_mem hc
      obtain ⟨hlow, hhigh, hquote, hslash⟩ := hplain _ hmem
      have hval : (Fin.ofNat 256 c.toNat).val = c.toNat := by
        have hc' := hascii c hc
        exact Nat.mod_eq_of_lt (by omega)
      rw [hval] at hlow hhigh hquote hslash
      refine ⟨hlow, hhigh, ?_, ?_⟩
      · rintro rfl
        exact hquote rfl
      · rintro rfl
        exact hslash rfl
  · intro h
    have hascii : ∀ c ∈ path.toList, c.toNat < 0x80 := fun c hc => by
      have hhigh := (h c hc).2.1
      omega
    have hval : ∀ c ∈ path.toList, (Fin.ofNat 256 c.toNat).val = c.toNat := fun c hc => by
      have hhigh := (h c hc).2.1
      exact Nat.mod_eq_of_lt (by omega)
    rcases printPath_cases path with heq | ⟨heq, -⟩
    · exfalso
      have hany : ¬ (32 ∈ nameBytes path ∨
          (nameBytes path).any (fun b => (quoteByte b).length ≠ 1) = true) := by
        rw [nameBytes_ascii hascii]
        rintro (hspace | hquote)
        · obtain ⟨c, hc, hc32⟩ := mem_map.mp hspace
          have hv := congrArg Fin.val hc32
          rw [hval c hc] at hv
          have hlow := (h c hc).1
          rw [hv] at hlow
          exact absurd hlow (by decide)
        · obtain ⟨b, hb, hne⟩ := any_eq_true.mp hquote
          obtain ⟨c, hc, rfl⟩ := mem_map.mp hb
          obtain ⟨hlow, hhigh, hq, hs⟩ := h c hc
          refine of_decide_eq_true hne ((length_quoteByte _).mpr ⟨?_, ?_, ?_, ?_⟩)
          · rw [hval c hc]
            omega
          · rw [hval c hc]
            exact hhigh
          · rw [hval c hc]
            exact fun h22 => hq (Char.toNat_inj.mp h22)
          · rw [hval c hc]
            exact fun h5c => hs (Char.toNat_inj.mp h5c)
      rw [not_or] at hany
      rw [printPath, if_neg (fun h' => hany.1 h'.1), printName, if_neg hany.2] at heq
      have hfirst : '\x22' ∈ (nameBytes path).map (fun b => Char.ofNat b.val) := by
        rw [heq]
        exact mem_cons_self
      obtain ⟨b, hb, hquote⟩ := mem_map.mp hfirst
      rw [nameBytes_ascii hascii] at hb
      obtain ⟨c, hc, rfl⟩ := mem_map.mp hb
      rw [hval c hc, Char.ofNat_toNat] at hquote
      exact (h c hc).2.2.1 hquote
    · rw [heq, nameBytes_ascii hascii, map_map]
      refine (map_congr_left (fun c hc => ?_)).trans (map_id _)
      rw [Function.comp_apply, hval c hc, Char.ofNat_toNat, id]

/-! ### Lines -/

theorem cutBytes_ascii (h : c.toNat < 0x80) (n : Nat) (l : List Char) :
    cutBytes (n + 1) (c :: l) = (cutBytes n l).map (fun p => (c :: p.1, p.2)) := by
  rw [cutBytes, Utf8.size_eq_one_iff.mpr h, if_pos (by omega), Nat.add_sub_cancel]

theorem statusLine_ascii {a b c : Char} (ha : a.toNat < 0x80) (hb : b.toNat < 0x80)
    (hc : c.toNat < 0x80) {rest : List Char} (hrest : rest ≠ []) :
    statusLine (a :: b :: c :: rest) = some (some (String.ofList [a, b], String.ofList rest)) := by
  have hlength : ¬ (Utf8.encode (a :: b :: c :: rest)).length < 4 := by
    have hpos := length_pos_iff.mpr (encode_ne_nil hrest)
    rw [Hex.encode_ascii ha, Hex.encode_ascii hb, Hex.encode_ascii hc, length_cons,
      length_cons, length_cons]
    omega
  rw [statusLine, if_neg hlength, cutBytes_ascii ha, cutBytes_ascii hb, cutBytes, cutBytes_ascii ha,
    cutBytes_ascii hb, cutBytes_ascii hc, cutBytes]
  rfl

theorem statusLine_some {xy path : String} (hc : c.toNat < 0x80)
    (h : statusLine (c :: l) = some (some (xy, path))) : ∃ rest, xy.toList = c :: rest := by
  rw [statusLine] at h
  split at h
  · cases h
  · rw [cutBytes_ascii hc] at h
    obtain ⟨p, hp, h⟩ := Option.bind_eq_some_iff.mp h
    obtain ⟨q, hq, rfl⟩ := Option.map_eq_some_iff.mp hp
    obtain ⟨r, -, h⟩ := Option.map_eq_some_iff.mp h
    cases h
    exact ⟨q.1, String.toList_ofList⟩

theorem code_ascii : ∀ code : StatusCode, code.char.toNat < 0x80 := by
  intro code
  cases code <;> decide

theorem cutBytes_eq_some {n : Nat} {l p q : List Char} (h : cutBytes n l = some (p, q)) :
    l = p ++ q ∧ (Utf8.encode p).length = n := by
  fun_induction cutBytes n l generalizing p q with
  | case1 l =>
    cases h
    exact ⟨rfl, rfl⟩
  | case2 n => cases h
  | case3 n c l hle ih =>
    obtain ⟨⟨p', q'⟩, hcut, hpair⟩ := Option.map_eq_some_iff.mp h
    cases hpair
    obtain ⟨rfl, hlength⟩ := ih hcut
    refine ⟨rfl, ?_⟩
    rw [Hex.length_encode_cons, hlength]
    omega
  | case4 n c l hle => cases h

theorem path_of_statusLine {line : List Char} {xy path : String}
    (h : statusLine line = some (some (xy, path))) : path ≠ "" := by
  rw [statusLine] at h
  split at h
  · cases h
  · next hlong =>
    obtain ⟨p, hp, h⟩ := Option.bind_eq_some_iff.mp h
    obtain ⟨⟨lead, rest⟩, hcut, h⟩ := Option.map_eq_some_iff.mp h
    cases h
    obtain ⟨rfl, hlead⟩ := cutBytes_eq_some hcut
    intro hempty
    have hrest : rest = [] := by
      rw [← String.toList_ofList (l := rest), hempty]
      rfl
    rw [hrest, append_nil, hlead] at hlong
    omega

/-- **Lines come out of the trimming of their text as they were**, if the first does not begin and
the last does not end with white space. -/
theorem lines_trim {spaces : List Char} {ls : List (List Char)} {c d : Char} {l l' : List Char}
    (hspaces : ∀ a ∈ spaces, Text.isWhitespace a = true) (hhead : ls.head? = some (c :: l))
    (hlast : ls.getLast? = some (l' ++ [d])) (hc : Text.isWhitespace c = false)
    (hd : Text.isWhitespace d = false) (hclean : ∀ line ∈ ls, '\n' ∉ line ∧ '\r' ∉ line) :
    Text.lines (Text.trimChars (spaces ++ ls.flatMap (· ++ ['\n']))) = ls := by
  obtain ⟨init, hinit⟩ : ∃ init, ls = init ++ [l' ++ [d]] := getLast?_eq_some_iff.mp hlast
  have hflat : ls.flatMap (· ++ ['\n']) = init.flatMap (· ++ ['\n']) ++ l' ++ [d] ++ ['\n'] := by
    rw [hinit, flatMap_append, flatMap_singleton]
    simp only [append_assoc]
  have hfirst : ∃ rest, ls.flatMap (· ++ ['\n']) = c :: rest := by
    obtain ⟨tail, rfl⟩ := head?_eq_some_iff.mp hhead
    exact ⟨l ++ ['\n'] ++ tail.flatMap (· ++ ['\n']), by rw [flatMap_cons]; rfl⟩
  have hstart : (spaces ++ ls.flatMap (· ++ ['\n'])).dropWhile Text.isWhitespace =
      ls.flatMap (· ++ ['\n']) := by
    obtain ⟨rest, hrest⟩ := hfirst
    rw [dropWhile_append_of_pos hspaces, hrest,
      dropWhile_cons_of_neg (by rw [hc]; exact Bool.false_ne_true)]
  have hstop : Text.dropEndWhile Text.isWhitespace (ls.flatMap (· ++ ['\n'])) =
      init.flatMap (· ++ ['\n']) ++ (l' ++ [d]) := by
    rw [hflat, Text.dropEndWhile, reverse_append, reverse_append, reverse_singleton,
      reverse_singleton, singleton_append, singleton_append, dropWhile_cons_of_pos (by decide),
      dropWhile_cons_of_neg (by rw [hd]; exact Bool.false_ne_true), reverse_cons,
      reverse_reverse, append_assoc]
  rw [Text.trimChars, hstart, hstop,
    Text.lines_unlines (fun line hline => hclean line (by rw [hinit]; exact mem_append_left _ hline))
      (hclean _ (by rw [hinit]; exact mem_append_right _ mem_cons_self)).1,
    if_neg (by simp), ← hinit]

/-! ### The round trip -/

variable {entries : List StatusEntry}

def readLines (lines : List (List Char)) : Option (List (String × String)) :=
  (lines.mapM statusLine).map (fun entries => entries.filterMap id)

theorem readLines_cons (line : List Char) (lines : List (List Char)) :
    readLines (line :: lines) = (statusLine line).bind (fun entry =>
      (readLines lines).map (fun entries => entry.toList ++ entries)) := by
  rw [readLines, mapM_cons]
  cases statusLine line with
  | none => rfl
  | some entry =>
    cases hrest : lines.mapM statusLine with
    | none => simp [readLines, hrest]
    | some rest =>
      cases entry with
      | none => simp [readLines, hrest]
      | some e => simp [readLines, hrest]

theorem length_readLines {lines : List (List Char)} : ∀ {es : List (String × String)},
    readLines lines = some es → es.length ≤ lines.length := by
  induction lines with
  | nil =>
    intro es h
    cases h
    exact Nat.le_refl 0
  | cons line lines ih =>
    intro es h
    rw [readLines_cons] at h
    obtain ⟨entry, -, h⟩ := Option.bind_eq_some_iff.mp h
    obtain ⟨es', hes', rfl⟩ := Option.map_eq_some_iff.mp h
    have hle := ih hes'
    rw [length_append, length_cons]
    cases entry with
    | none => exact Nat.le_trans (by rw [Option.toList_none, length_nil]; omega) (Nat.le_succ _)
    | some e =>
      rw [Option.toList_some, length_singleton]
      omega

theorem paths_readLines {lines : List (List Char)} : ∀ {es : List (String × String)},
    readLines lines = some es → ∀ e ∈ es, e.2 ≠ "" := by
  induction lines with
  | nil =>
    intro es h
    cases h
    exact fun e he => absurd he not_mem_nil
  | cons line lines ih =>
    intro es h
    rw [readLines_cons] at h
    obtain ⟨entry, hentry, h⟩ := Option.bind_eq_some_iff.mp h
    obtain ⟨es', hes', rfl⟩ := Option.map_eq_some_iff.mp h
    intro e he
    rcases mem_append.mp he with he | he
    · rw [Option.mem_toList] at he
      rw [he] at hentry
      exact path_of_statusLine hentry
    · exact ih hes' e he

theorem readLines_printed (h : ∀ e ∈ entries, e.path ≠ "") :
    readLines (entries.map StatusEntry.line) =
      some (entries.map (fun e => (e.pair.1, String.ofList (printPath e.path)))) := by
  induction entries with
  | nil => rfl
  | cons e entries ih =>
    obtain ⟨he, hentries⟩ := forall_mem_cons.mp h
    obtain ⟨c, l, hprinted, -, -⟩ := ends_printPath he
    have hne : printPath e.path ≠ [] := by
      rw [hprinted]
      exact cons_ne_nil _ _
    rw [map_cons, readLines_cons, StatusEntry.line,
      statusLine_ascii (code_ascii e.x) (code_ascii e.y) (by decide) hne, Option.bind_some,
      ih hentries]
    rfl

theorem stdoutText_printStatus (entries : List StatusEntry) :
    stdoutText (printStatus entries) =
      Text.trimChars ((entries.map StatusEntry.line).flatMap (· ++ ['\n'])) := by
  rw [stdoutText, printStatus, Utf8.lossy_encode, flatMap_map]

theorem clean_line (e : StatusEntry) : '\n' ∉ e.line ∧ '\r' ∉ e.line := by
  have hcode : ∀ code : StatusCode, code.char ≠ '\n' ∧ code.char ≠ '\r' := by
    intro code
    cases code <;> decide
  have hprinted : ∀ c, ¬ Printable c → c ∉ printPath e.path :=
    fun c hc hmem => hc (printable_printPath e.path c hmem)
  have habsent : ∀ c, ¬ Printable c → (∀ code : StatusCode, code.char ≠ c) → c ∉ e.line := by
    intro c hc hcodes
    rw [StatusEntry.line, mem_cons, mem_cons, mem_cons, not_or, not_or, not_or]
    refine ⟨(hcodes e.x).symm, (hcodes e.y).symm, ?_, hprinted c hc⟩
    rintro rfl
    exact hc (by decide)
  exact ⟨habsent '\n' (by decide) (fun code => (hcode code).1),
    habsent '\r' (by decide) (fun code => (hcode code).2)⟩

theorem not_space_code {code : StatusCode} (h : code ≠ .unmodified) :
    Text.isWhitespace code.char = false := by
  cases code with
  | unmodified => exact absurd rfl h
  | _ => rfl

/-- What is left of a first line when the text before it is trimmed. -/
structure Led (e : StatusEntry) (spaces : List Char) (c : Char) (l : List Char) : Prop where
  line : e.line = spaces ++ c :: l
  blank : ∀ a ∈ spaces, Text.isWhitespace a = true
  first : Text.isWhitespace c = false
  ascii : c.toNat < 0x80
  ends : ∃ d l', c :: l = l' ++ [d] ∧ Text.isWhitespace d = false
  whole : e.x ≠ .unmodified → spaces = []

theorem exists_led {e : StatusEntry} (he : e.path ≠ "") : ∃ spaces c l, Led e spaces c l := by
  obtain ⟨c, l, hprinted, hc, d, l', hend, hd⟩ := ends_printPath he
  have hws : ∀ a ∈ printPath e.path, a ≠ ' ' → Text.isWhitespace a = false := by
    intro a ha hne
    rw [← Bool.not_eq_true, isWhitespace_printable (printable_printPath e.path a ha)]
    exact hne
  have hc' : Text.isWhitespace c = false := hws c (by rw [hprinted]; exact mem_cons_self) hc
  have hd' : Text.isWhitespace d = false :=
    hws d (by rw [hend]; exact mem_append_right _ mem_cons_self) hd
  have hascii : c.toNat < 0x80 := by
    have hhigh := (printable_printPath e.path c (by rw [hprinted]; exact mem_cons_self)).2
    omega
  have hends : ∀ start : List Char, ∃ d l', start ++ printPath e.path = l' ++ [d] ∧
      Text.isWhitespace d = false := by
    intro start
    exact ⟨d, start ++ l', by rw [hend, append_assoc], hd'⟩
  by_cases hx : e.x = .unmodified
  · by_cases hy : e.y = .unmodified
    · refine ⟨[' ', ' ', ' '], c, l, ?_, Text.forall_of_all rfl, hc', hascii, ?_, fun h => absurd hx h⟩
      · rw [StatusEntry.line, hx, hy, hprinted]
        rfl
      · rw [← hprinted]
        exact hends []
    · refine ⟨[' '], e.y.char, ' ' :: printPath e.path, ?_, Text.forall_of_all rfl, not_space_code hy,
        code_ascii e.y, hends [e.y.char, ' '], fun h => absurd hx h⟩
      rw [StatusEntry.line, hx]
      rfl
  · exact ⟨[], e.x.char, e.y.char :: ' ' :: printPath e.path, rfl, Text.forall_of_all rfl, not_space_code hx,
      code_ascii e.x, hends [e.x.char, e.y.char, ' '], fun _ => rfl⟩

theorem statusPorcelain_led {e : StatusEntry} {spaces l : List Char}
    (hled : Led e spaces c l) (hentries : ∀ e ∈ entries, e.path ≠ "") :
    statusPorcelain (printStatus (e :: entries)) =
      readLines ((c :: l) :: entries.map StatusEntry.line) := by
  have htext : ((e :: entries).map StatusEntry.line).flatMap (· ++ ['\n']) =
      spaces ++ ((c :: l) :: entries.map StatusEntry.line).flatMap (· ++ ['\n']) := by
    rw [map_cons, flatMap_cons, flatMap_cons, hled.line]
    simp only [append_assoc]
  have hlast : ∃ d l', ((c :: l) :: entries.map StatusEntry.line).getLast? = some (l' ++ [d]) ∧
      Text.isWhitespace d = false := by
    rcases eq_nil_or_concat entries with rfl | ⟨init, last, heq⟩
    · obtain ⟨d, l', heq, hd⟩ := hled.ends
      exact ⟨d, l', by rw [← heq]; rfl, hd⟩
    · rw [concat_eq_append] at heq
      subst heq
      obtain ⟨spaces', c', l'', hled'⟩ :=
        exists_led (hentries last (mem_append_right _ mem_cons_self))
      obtain ⟨d, l', heq, hd⟩ := hled'.ends
      refine ⟨d, spaces' ++ l', ?_, hd⟩
      rw [map_append, map_singleton, ← cons_append, getLast?_concat, hled'.line, heq, append_assoc]
  have hclean : ∀ line ∈ (c :: l) :: entries.map StatusEntry.line, '\n' ∉ line ∧ '\r' ∉ line := by
    intro line hline
    rcases mem_cons.mp hline with rfl | hline
    · obtain ⟨hn, hr⟩ := clean_line e
      rw [hled.line] at hn hr
      exact ⟨fun h => hn (mem_append_right _ h), fun h => hr (mem_append_right _ h)⟩
    · obtain ⟨e', -, rfl⟩ := mem_map.mp hline
      exact clean_line e'
  obtain ⟨d, l', hlast, hd⟩ := hlast
  have hlines := lines_trim hled.blank rfl hlast hled.first hd hclean
  show readLines (Text.lines (stdoutText (printStatus (e :: entries)))) = _
  rw [stdoutText_printStatus, htext, hlines]

/-- **What is read is what was printed exactly when the first entry does not begin with a space and
every path is a plain one.** -/
theorem status_round_trip_iff (entries : List StatusEntry) :
    statusPorcelain (printStatus entries) = some (entries.map StatusEntry.pair) ↔
      (∀ e ∈ entries.head?, e.x ≠ .unmodified) ∧
        ∀ e ∈ entries, e.path ≠ "" ∧ PlainPath e.path := by
  constructor
  · intro h
    have hpaths : ∀ e ∈ entries, e.path ≠ "" := fun e he =>
      paths_readLines h e.pair (mem_map_of_mem he)
    cases entries with
    | nil => exact ⟨fun e he => (by cases he), fun e he => absurd he not_mem_nil⟩
    | cons e entries =>
      obtain ⟨hpath, hentries⟩ := forall_mem_cons.mp hpaths
      obtain ⟨spaces, c, l, hled⟩ := exists_led hpath
      rw [statusPorcelain_led hled hentries] at h
      have hx : e.x ≠ .unmodified := by
        intro hx
        -- the entry of the first line begins with the character the line begins with
        rw [readLines_cons] at h
        obtain ⟨entry, hentry, h⟩ := Option.bind_eq_some_iff.mp h
        obtain ⟨es, hes, hall⟩ := Option.map_eq_some_iff.mp h
        cases entry with
        | none =>
          have hle := length_readLines hes
          rw [Option.toList_none, nil_append] at hall
          rw [hall, length_map, length_map, length_cons] at hle
          omega
        | some pair =>
          have hpair : pair = e.pair := by
            rw [Option.toList_some, singleton_append, map_cons] at hall
            exact (List.cons.inj hall).1
          rw [hpair] at hentry
          obtain ⟨rest, hrest⟩ := statusLine_some hled.ascii hentry
          rw [String.toList_ofList, hx] at hrest
          have hfirst := hled.first
          rw [← (List.cons.inj hrest).1] at hfirst
          exact absurd hfirst (by decide)
      refine ⟨fun e' he' => Option.some.inj he' ▸ hx, ?_⟩
      have hline : c :: l = e.line := by
        rw [hled.line, hled.whole hx, nil_append]
      rw [hline, ← map_cons, readLines_printed hpaths] at h
      have hprinted := map_inj_left.mp (Option.some.inj h)
      intro e' he'
      refine ⟨hpaths e' he', printPath_eq_iff.mp ?_⟩
      have hpair := congrArg Prod.snd (hprinted e' he')
      rw [← String.ofList_inj, String.ofList_toList]
      exact hpair
  · rintro ⟨hfirst, hall⟩
    cases entries with
    | nil => rfl
    | cons e entries =>
      have hpaths : ∀ e' ∈ e :: entries, e'.path ≠ "" := fun e' he' => (hall e' he').1
      obtain ⟨hpath, hentries⟩ := forall_mem_cons.mp hpaths
      obtain ⟨spaces, c, l, hled⟩ := exists_led hpath
      have hline : c :: l = e.line := by
        rw [hled.line, hled.whole (hfirst e rfl), nil_append]
      rw [statusPorcelain_led hled hentries, hline, ← map_cons, readLines_printed hpaths]
      refine congrArg some (map_congr_left (fun e' he' => ?_))
      rw [printPath_eq_iff.mpr (hall e' he').2, String.ofList_toList]
      rfl

/-- A change that is not staged is the first entry: its space is lost and a letter of its path. -/
theorem status_misread : statusPorcelain (printStatus [⟨.unmodified, .modified, "foo"⟩]) ≠
    some [(" M", "foo")] := by
  decide +kernel

end Git

end Modbit
