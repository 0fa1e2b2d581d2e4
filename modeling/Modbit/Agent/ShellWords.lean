import Modbit.Lib.Json
import Modbit.Lib.Text
import Mathlib.Data.List.Induction

/-!
# Shell words

`split_shell_words` in `crates/core-runtime/src/scheduler.rs`, which cuts the string form of the
`argv` of `shell.run` into words.  It reads the command once, with a flag for each kind of quote
that is open and one for a word that has begun.

`Writes` are the ways to write a list of words: each word is cut into bare and quoted pieces, with
white space around.  `Opened` are the texts that end inside a quote.  `splitShellWords_spec`: what
is written is read back, the texts that end inside a quote are the errors, and every list of words
can be written.
-/

namespace Modbit.Agent.ShellWords

open Lib Text List

/-! ### The scanner -/

structure Scan where
  words : List String
  current : List Char
  inSingle : Bool
  inDouble : Bool
  started : Bool

namespace Scan

def new : Scan := ⟨[], [], false, false, false⟩

def read (s : Scan) (c : Char) : Scan :=
  if c = '\x27' ∧ s.inDouble = false then { s with inSingle := !s.inSingle, started := true }
  else if c = '\x22' ∧ s.inSingle = false then { s with inDouble := !s.inDouble, started := true }
  else if isWhitespace c ∧ s.inSingle = false ∧ s.inDouble = false then
    if s.started then
      { s with words := s.words ++ [String.ofList s.current], current := [], started := false }
    else s
  else { s with current := s.current ++ [c], started := true }

/-- What is made of the scan behind the last character. -/
def finish (s : Scan) : Except String (List String) :=
  if s.inSingle ∨ s.inDouble then .error "unterminated quote in argv string"
  else if s.started then .ok (s.words ++ [String.ofList s.current])
  else .ok s.words

end Scan

def splitShellWords (command : String) : Except String (List String) :=
  (command.toList.foldl Scan.read .new).finish

def arrayEntry (item : Json) : Except String String :=
  match item.asStr with
  | none => .error "argv array entries must be strings"
  | some part => if part = "" then .error "argv array entries must be non-empty" else .ok part

/-- The argv that `shell.run` gets from its arguments. -/
def shellArgv (args : Json) : Except String (List String) := do
  let argv ← match args.field "argv" with
    | some (.arr items) => items.mapM arrayEntry
    | some (.str command) => splitShellWords command
    | _ => .error "missing argv (JSON array of strings, or a command string)"
  if argv = [] then .error "empty argv" else .ok argv

/-! ### Written words -/

def IsQuote (q : Char) : Prop := q = '\x27' ∨ q = '\x22'

inductive Piece where
  | bare (text : List Char)
  | single (text : List Char)
  | double (text : List Char)

namespace Piece

def text : Piece → List Char
  | bare text => text
  | single text => text
  | double text => text

/-- The characters that the piece can stand for in its way. -/
def Fits : Piece → Prop
  | bare text => ∀ c ∈ text, isWhitespace c = false ∧ ¬ IsQuote c
  | single text => '\x27' ∉ text
  | double text => '\x22' ∉ text

def written : Piece → List Char
  | bare text => text
  | single text => '\x27' :: text ++ ['\x27']
  | double text => '\x22' :: text ++ ['\x22']

end Piece

/-- A word cut into pieces.  An empty word has a quoted one. -/
structure WrittenWord where
  pieces : List Piece
  fits : ∀ p ∈ pieces, p.Fits
  nonempty : pieces.flatMap Piece.written ≠ []

namespace WrittenWord

variable (w : WrittenWord)

def written : List Char := w.pieces.flatMap Piece.written

def text : List Char := w.pieces.flatMap Piece.text

end WrittenWord

def Blank (gap : List Char) : Prop := ∀ c ∈ gap, isWhitespace c = true

/-- A text is one of the ways to write a list of words. -/
inductive Writes : List Char → List String → Prop
  | blank {gap : List Char} (hgap : Blank gap) : Writes gap []
  | word {gap rest : List Char} {words : List String} (hgap : Blank gap) (w : WrittenWord)
      (hrest : ∀ c ∈ rest.head?, isWhitespace c = true) (next : Writes rest words) :
      Writes (gap ++ w.written ++ rest) (String.ofList w.text :: words)

inductive Closed : List Char → Prop
  | nil : Closed []
  | plain {a : List Char} {c : Char} (prior : Closed a) (hc : ¬ IsQuote c) : Closed (a ++ [c])
  | quoted {a text : List Char} {q : Char} (prior : Closed a) (hq : IsQuote q) (htext : q ∉ text) :
      Closed (a ++ q :: text ++ [q])

/-- The text ends inside a quote that `q` has opened. -/
def OpenedBy (q : Char) (t : List Char) : Prop := ∃ a l, t = a ++ q :: l ∧ Closed a ∧ q ∉ l

def Opened (t : List Char) : Prop := ∃ q, IsQuote q ∧ OpenedBy q t

/-! ### Reading what is written -/

section Reading

variable (words : List String) (current : List Char) (started : Bool) {text : List Char}

theorem read_bare (h : (Piece.bare text).Fits) :
    text.foldl Scan.read ⟨words, current, false, false, started⟩
      = ⟨words, current ++ text, false, false, started || !text.isEmpty⟩ := by
  induction text generalizing current started with
  | nil => simp
  | cons c text ih =>
    obtain ⟨hspace, hquote⟩ := h c mem_cons_self
    have hread : Scan.read ⟨words, current, false, false, started⟩ c
        = ⟨words, current ++ [c], false, false, true⟩ := by
      simp only [IsQuote, not_or] at hquote
      simp [Scan.read, hspace, hquote]
    rw [foldl_cons, hread, ih _ _ (fun d hd => h d (mem_cons_of_mem c hd))]
    simp

/-- The scan inside the quote that `q` has opened. -/
def inside (q : Char) : Scan := ⟨words, current, decide (q = '\x27'), decide (q = '\x22'), true⟩

variable {q : Char}

theorem read_inside (hq : IsQuote q) (h : q ∉ text) :
    text.foldl Scan.read (inside words current q) = inside words (current ++ text) q := by
  induction text generalizing current with
  | nil => rw [foldl_nil, append_nil]
  | cons c text ih =>
    have hc : c ≠ q := fun he => h (he ▸ mem_cons_self)
    have hread : Scan.read (inside words current q) c = inside words (current ++ [c]) q := by
      rcases hq with rfl | rfl <;> simp [inside, Scan.read, hc]
    rw [foldl_cons, hread, ih _ (fun hm => h (mem_cons_of_mem c hm)), append_assoc,
      singleton_append]

theorem read_open (hq : IsQuote q) :
    Scan.read ⟨words, current, false, false, started⟩ q = inside words current q := by
  rcases hq with rfl | rfl <;> simp [inside, Scan.read]

theorem read_close (hq : IsQuote q) :
    Scan.read (inside words current q) q = ⟨words, current, false, false, true⟩ := by
  rcases hq with rfl | rfl <;> simp [inside, Scan.read]

theorem read_quoted (hq : IsQuote q) (h : q ∉ text) :
    (q :: text ++ [q]).foldl Scan.read ⟨words, current, false, false, started⟩
      = ⟨words, current ++ text, false, false, true⟩ := by
  rw [cons_append, foldl_cons, read_open words current started hq, foldl_append,
    read_inside words current hq h]
  exact read_close words _ hq

theorem read_piece {p : Piece} (h : p.Fits) :
    p.written.foldl Scan.read ⟨words, current, false, false, started⟩
      = ⟨words, current ++ p.text, false, false, started || !p.written.isEmpty⟩ := by
  cases p with
  | bare text => exact read_bare words current started h
  | single text =>
    rw [Piece.written, read_quoted words current started (.inl rfl) h, cons_append,
      isEmpty_cons, Bool.not_false, Bool.or_true]
    rfl
  | double text =>
    rw [Piece.written, read_quoted words current started (.inr rfl) h, cons_append,
      isEmpty_cons, Bool.not_false, Bool.or_true]
    rfl

theorem read_pieces {ps : List Piece} (h : ∀ p ∈ ps, p.Fits) :
    (ps.flatMap Piece.written).foldl Scan.read ⟨words, current, false, false, started⟩
      = ⟨words, current ++ ps.flatMap Piece.text, false, false,
          started || !(ps.flatMap Piece.written).isEmpty⟩ := by
  induction ps generalizing current started with
  | nil => simp
  | cons p ps ih =>
    rw [flatMap_cons, foldl_append, read_piece words current started (h p mem_cons_self),
      ih _ _ (fun q hq => h q (mem_cons_of_mem p hq))]
    have hempty : ∀ l m : List Char, (l ++ m).isEmpty = (l.isEmpty && m.isEmpty) := by
      intro l m
      cases l <;> rfl
    rw [flatMap_cons, append_assoc, Bool.or_assoc, ← Bool.not_and, ← hempty]

theorem not_quote_of_space {c : Char} (hc : isWhitespace c = true) : c ≠ '\x27' ∧ c ≠ '\x22' :=
  ⟨fun he => absurd hc (by rw [he]; decide), fun he => absurd hc (by rw [he]; decide)⟩

theorem read_blank {gap : List Char} (h : Blank gap) :
    gap.foldl Scan.read ⟨words, [], false, false, false⟩ = ⟨words, [], false, false, false⟩ := by
  induction gap with
  | nil => rfl
  | cons c gap ih =>
    have hc := h c mem_cons_self
    obtain ⟨hsingle, hdouble⟩ := not_quote_of_space hc
    have hread : Scan.read ⟨words, [], false, false, false⟩ c
        = ⟨words, [], false, false, false⟩ := by
      simp [Scan.read, hc, hsingle, hdouble]
    rw [foldl_cons, hread, ih (fun d hd => h d (mem_cons_of_mem c hd))]

theorem finish_word {rest : List Char} (hrest : ∀ c ∈ rest.head?, isWhitespace c = true) :
    (rest.foldl Scan.read ⟨words, current, false, false, true⟩).finish
      = (rest.foldl Scan.read
          ⟨words ++ [String.ofList current], [], false, false, false⟩).finish := by
  cases rest with
  | nil => rfl
  | cons c rest =>
    have hc : isWhitespace c = true := hrest c rfl
    obtain ⟨hsingle, hdouble⟩ := not_quote_of_space hc
    rw [foldl_cons, foldl_cons]
    simp [Scan.read, hc, hsingle, hdouble]

end Reading

variable {t : List Char}

/-- **What is written is read back.** -/
theorem finish_writes {words : List String} (h : Writes t words) (before : List String) :
    (t.foldl Scan.read ⟨before, [], false, false, false⟩).finish = .ok (before ++ words) := by
  induction h generalizing before with
  | blank hgap =>
    rw [read_blank before hgap, append_nil]
    rfl
  | @word gap rest words hgap w hrest next ih =>
    have hword : w.written.foldl Scan.read ⟨before, [], false, false, false⟩
        = ⟨before, w.text, false, false, true⟩ := by
      have hnonempty : w.written.isEmpty = false := isEmpty_eq_false_iff.mpr w.nonempty
      rw [WrittenWord.written] at hnonempty ⊢
      rw [read_pieces before [] false w.fits, hnonempty]
      rfl
    rw [foldl_append, foldl_append, read_blank before hgap, hword,
      finish_word before w.text hrest, ih, append_assoc, singleton_append]

/-! ### Open quotes -/

theorem read_closed (h : Closed t) (s : Scan) (hs : s.inSingle = false) (hd : s.inDouble = false) :
    ∃ words current started, t.foldl Scan.read s = ⟨words, current, false, false, started⟩ := by
  induction h with
  | nil =>
    obtain ⟨words, current, _, _, started⟩ := s
    obtain rfl := hs
    obtain rfl := hd
    exact ⟨words, current, started, rfl⟩
  | @plain a c prior hc ih =>
    obtain ⟨words, current, started, heq⟩ := ih
    simp only [IsQuote, not_or] at hc
    rw [foldl_append, heq, foldl_cons, foldl_nil, Scan.read,
      if_neg (fun h => hc.1 h.1), if_neg (fun h => hc.2 h.1)]
    split_ifs
    · exact ⟨_, _, _, rfl⟩
    · exact ⟨_, _, _, rfl⟩
    · exact ⟨_, _, _, rfl⟩
  | @quoted a text q prior hq htext ih =>
    obtain ⟨words, current, started, heq⟩ := ih
    rw [append_assoc, foldl_append, heq, read_quoted words current started hq htext]
    exact ⟨_, _, _, rfl⟩

theorem read_opened {q : Char} (hq : IsQuote q) (h : OpenedBy q t) :
    ∃ words current, t.foldl Scan.read .new = inside words current q := by
  obtain ⟨a, l, rfl, ha, hl⟩ := h
  obtain ⟨words, current, started, heq⟩ := read_closed ha .new rfl rfl
  refine ⟨words, current ++ l, ?_⟩
  rw [foldl_append, heq, foldl_cons, read_open words current started hq,
    read_inside words current hq hl]

theorem closed_or_opened (t : List Char) : Closed t ∨ Opened t := by
  induction t using List.reverseRecOn with
  | nil => exact .inl .nil
  | append_singleton t c ih =>
    rcases ih with hclosed | ⟨q, hq, a, l, rfl, ha, hl⟩
    · by_cases hc : IsQuote c
      · exact .inr ⟨c, hc, t, [], rfl, hclosed, not_mem_nil⟩
      · exact .inl (hclosed.plain hc)
    · by_cases hc : c = q
      · rw [hc, append_assoc]
        have hend := ha.quoted hq hl
        rw [append_assoc] at hend
        exact .inl hend
      · refine .inr ⟨q, hq, a, l ++ [c], by rw [append_assoc, cons_append], ha, ?_⟩
        intro hm
        rcases mem_append.mp hm with hm | hm
        · exact hl hm
        · exact hc (mem_singleton.mp hm).symm

theorem error_iff (command : String) :
    (∃ e, splitShellWords command = .error e) ↔ Opened command.toList := by
  constructor
  · rintro ⟨e, he⟩
    rcases closed_or_opened command.toList with hclosed | hopened
    · obtain ⟨words, current, started, heq⟩ := read_closed hclosed .new rfl rfl
      rw [splitShellWords, heq, Scan.finish, if_neg (by simp)] at he
      split_ifs at he
    · exact hopened
  · rintro ⟨q, hq, hopened⟩
    obtain ⟨words, current, heq⟩ := read_opened hq hopened
    refine ⟨"unterminated quote in argv string", ?_⟩
    rw [splitShellWords, heq, Scan.finish, if_pos (by rcases hq with rfl | rfl <;> simp [inside])]

/-! ### Every list of words can be written -/

def quoteChar (c : Char) : Piece := if c = '\x27' then .double [c] else .single [c]

theorem quoteChar_spec (c : Char) : (quoteChar c).Fits ∧ (quoteChar c).text = [c] := by
  rw [quoteChar]
  split_ifs with hc
  · refine ⟨?_, rfl⟩
    intro hm
    exact absurd ((mem_singleton.mp hm).trans hc) (by decide)
  · exact ⟨fun hm => hc (mem_singleton.mp hm).symm, rfl⟩

def quoteWord (word : String) : WrittenWord where
  pieces := .single [] :: word.toList.map quoteChar
  fits := by
    intro p hp
    rcases List.mem_cons.mp hp with rfl | hp
    · exact List.not_mem_nil
    · obtain ⟨c, -, rfl⟩ := List.mem_map.mp hp
      exact (quoteChar_spec c).1
  nonempty := by
    rw [List.flatMap_cons, Piece.written]
    exact List.append_ne_nil_of_left_ne_nil (List.cons_ne_nil _ _) _

theorem quoteWord_text (word : String) : String.ofList (quoteWord word).text = word := by
  have hpieces : (word.toList.map quoteChar).flatMap Piece.text = word.toList := by
    induction word.toList with
    | nil => rfl
    | cons c l ih =>
      rw [map_cons, flatMap_cons, (quoteChar_spec c).2, ih, singleton_append]
  rw [WrittenWord.text, quoteWord, flatMap_cons, hpieces]
  exact String.ofList_toList

theorem Writes.blank_append {gap t : List Char} {words : List String} (hgap : Blank gap)
    (h : Writes t words) : Writes (gap ++ t) words := by
  have hboth : ∀ {gap' : List Char}, Blank gap' → Blank (gap ++ gap') := fun h' c hc =>
    (mem_append.mp hc).elim (hgap c) (h' c)
  cases h with
  | blank hgap' => exact .blank (hboth hgap')
  | word hgap' w hrest next =>
    rw [← append_assoc, ← append_assoc]
    exact .word (hboth hgap') w hrest next

def commandOf : List String → List Char
  | [] => []
  | word :: words => (quoteWord word).written ++ ' ' :: commandOf words

theorem writes_commandOf : ∀ words : List String, Writes (commandOf words) words
  | [] => .blank (fun _ hc => nomatch hc)
  | word :: words => by
    have hblank : Blank [' '] := fun c hc => by rw [mem_singleton.mp hc]; decide
    have hrest := (writes_commandOf words).blank_append hblank
    have hnone : Blank [] := fun _ hc => nomatch hc
    have h := Writes.word hnone (quoteWord word)
      (fun c hc => by rw [← Option.some.inj hc]; decide) hrest
    rw [quoteWord_text] at h
    exact h

/-- **Every way to write a list of words is read as that list, the texts that end inside a quote
are the errors, and every argv can be given as a command.** -/
theorem splitShellWords_spec :
    (∀ t words, Writes t words → splitShellWords (String.ofList t) = .ok words)
      ∧ (∀ command, (∃ e, splitShellWords command = .error e) ↔ Opened command.toList)
      ∧ ∀ words : List String, ∃ command, Writes command.toList words
          ∧ shellArgv (.obj [("argv", .str command)])
              = if words = [] then .error "empty argv" else .ok words := by
  have hsplit : ∀ t words, Writes t words → splitShellWords (String.ofList t) = .ok words := by
    intro t words h
    rw [splitShellWords, String.toList_ofList]
    exact finish_writes h []
  refine ⟨hsplit, error_iff, fun words => ?_⟩
  have hwrites := writes_commandOf words
  refine ⟨String.ofList (commandOf words), ?_, ?_⟩
  · rw [String.toList_ofList]
    exact hwrites
  · have hfield : Json.field "argv" (.obj [("argv", .str (String.ofList (commandOf words)))])
        = some (.str (String.ofList (commandOf words))) := rfl
    rw [shellArgv, hfield]
    dsimp only
    rw [hsplit _ words hwrites]
    rfl

end Modbit.Agent.ShellWords
