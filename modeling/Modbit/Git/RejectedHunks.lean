import Modbit.Git.Hunks

/-!
# The patch of a rejected hunk

`reject_hunk` reads the diff of a file and puts its header, a hunk's header and the hunk's lines
together again.  What it takes for the file's header are the lines that begin like one, in a hunk
too, and the diff has lost what trimming and the reading by lines take away.  `rejected_iff` says
when the patch is the file's header and the hunk.
-/

namespace Modbit

open Lib List

namespace Git

/-! ### Numbers in a header -/

variable {c : Char}

theorem not_mem_range (hc : c.isDigit = false) (hcomma : c ≠ ',') (start count : Nat) :
    c ∉ range start count := by
  rw [range, mem_append, not_or]
  refine ⟨Text.not_mem_toDigits hc start, ?_⟩
  split_ifs
  · exact not_mem_nil
  · rw [mem_cons, not_or]
    exact ⟨hcomma, Text.not_mem_toDigits hc count⟩

theorem splitOn_begins {a : List Char} (ha : c ∉ a) (rest : List Char) :
    ∃ r pieces, (a ++ rest).splitOn c = (a ++ r) :: pieces := by
  by_cases hmem : c ∈ rest
  · obtain ⟨r, s, rfl, hr⟩ := eq_append_cons_of_mem hmem
    have har : c ∉ a ++ r := fun h => (mem_append.mp h).elim ha hr
    exact ⟨r, s.splitOn c, by
      rw [← append_assoc, splitOn_append_cons_self_of_not_mem har]⟩
  · have har : c ∉ a ++ rest := fun h => (mem_append.mp h).elim ha hmem
    exact ⟨rest, [], splitOn_eq_singleton har⟩

theorem takeWhile_toDigits (n : Nat) {sep : Char} (hsep : sep.isDigit = false) (rest : List Char) :
    (Nat.toDigits 10 n ++ sep :: rest).takeWhile Char.isDigit = Nat.toDigits 10 n := by
  have hdigits : ∀ c ∈ Nat.toDigits 10 n, c.isDigit = true := fun c hc => by
    by_contra hnot
    exact Text.not_mem_toDigits (Bool.eq_false_iff.mpr hnot) n hc
  rw [takeWhile_append_of_pos hdigits, takeWhile_cons_of_neg (by rw [hsep]; decide), append_nil]

theorem parseUsize_toDigits {n : Nat} (h : n < 2 ^ 64) : parseUsize (Nat.toDigits 10 n) = some n := by
  have hvalue : Nat.ofDigitChars 10 (Nat.toDigits 10 n) 0 = n := Nat.ofDigitChars_ten_toDigits
  rw [parseUsize, hvalue, if_pos ⟨Nat.toDigits_ne_nil, h⟩]

namespace PrintedHunk

variable (h : PrintedHunk)

/-- **A hunk's start is read back**, whatever its heading is. -/
theorem hunkNewStart_ranges (rest : List Char) :
    hunkNewStart (h.ranges ++ rest) = some h.newStart := by
  have hold : '+' ∉ "@@ -".toList ++ range h.oldStart h.removed.length ++ [' '] := by
    rw [mem_append, mem_append, not_or, not_or]
    exact ⟨⟨by decide, not_mem_range (by decide) (by decide) _ _⟩, by decide⟩
  -- a comma or a blank ends the number
  have hnew : ∃ sep tail, range h.newStart h.added.length ++ " @@".toList ++ rest
      = Nat.toDigits 10 h.newStart ++ sep :: tail ∧ sep.isDigit = false ∧ '+' ≠ sep := by
    rw [range]
    split_ifs
    · exact ⟨' ', "@@".toList ++ rest, by rw [append_nil, append_assoc]; rfl,
        by decide, by decide⟩
    · exact ⟨',', Nat.toDigits 10 h.added.length ++ " @@".toList ++ rest,
        by rw [append_assoc, append_assoc, append_assoc]; rfl, by decide, by decide⟩
  obtain ⟨sep, tail, htail, hsep, hplus⟩ := hnew
  have hsplit : h.ranges ++ rest
      = ("@@ -".toList ++ range h.oldStart h.removed.length ++ [' '])
        ++ '+' :: (Nat.toDigits 10 h.newStart ++ [sep] ++ tail) := by
    rw [append_assoc (Nat.toDigits 10 h.newStart), singleton_append, ← htail]
    unfold ranges
    simp only [append_assoc]
    rfl
  have hfree : '+' ∉ Nat.toDigits 10 h.newStart ++ [sep] := by
    rw [mem_append, mem_singleton, not_or]
    exact ⟨Text.not_mem_toDigits (by decide) _, hplus⟩
  obtain ⟨r, pieces, hpieces⟩ := splitOn_begins hfree tail
  rw [hunkNewStart, hsplit, splitOn_append_cons_self_of_not_mem hold, hpieces,
    getElem?_cons_succ, getElem?_cons_zero, Option.bind_some, append_assoc,
    singleton_append, takeWhile_toDigits _ hsep, parseUsize_toDigits h.fits]

theorem begins_ranges (rest : List Char) : "@@ -".toList <+: h.ranges ++ rest := by
  unfold ranges
  simp only [append_assoc, prefix_append]

theorem not_mem_ranges {c : Char} (hc : c.isDigit = false) (hsign : c ∉ "@ -+,".toList) :
    c ∉ h.ranges := by
  have hcomma : c ≠ ',' := fun heq => hsign (heq ▸ by decide)
  unfold ranges
  simp only [mem_append, not_or]
  refine ⟨⟨⟨⟨fun hmem => hsign ?_, not_mem_range hc hcomma _ _⟩, fun hmem => hsign ?_⟩,
    not_mem_range hc hcomma _ _⟩, fun hmem => hsign ?_⟩
  · exact Text.forall_of_all (l := "@@ -".toList) rfl c hmem
  · exact Text.forall_of_all (l := " +".toList) rfl c hmem
  · exact Text.forall_of_all (l := " @@".toList) rfl c hmem

/-! ### Headers and bodies as they are read -/

def headerText : List Char := Text.stripCr (Utf8.lossy h.header)

theorem lossy_header :
    Utf8.lossy h.header
      = h.ranges ++ if h.heading = [] then [] else ' ' :: Utf8.lossy h.heading := by
  rw [header, Utf8.lossy_encode_append]
  split_ifs
  · rfl
  · rw [show (0x20 : UInt8) :: h.heading = Utf8.encode [' '] ++ h.heading from rfl,
      Utf8.lossy_encode_append]
    rfl

theorem headerText_eq : ∃ rest, h.headerText = h.ranges ++ rest := by
  have hfree : '\r' ∉ h.ranges := h.not_mem_ranges (by decide) (by decide)
  rw [headerText, lossy_header, Text.stripCr]
  split_ifs with hnil hlast hlast
  · rw [append_nil] at hlast
    exact absurd (mem_of_getLast? hlast) hfree
  · exact ⟨[], rfl⟩
  · rw [dropLast_append_of_ne_nil (cons_ne_nil _ _)]
    exact ⟨_, rfl⟩
  · exact ⟨_, rfl⟩

theorem newline_not_mem_header : (0x0A : UInt8) ∉ h.header := by
  rw [header, mem_append, not_or]
  refine ⟨Utf8.newline_not_mem_encode (h.not_mem_ranges (by decide) (by decide)), ?_⟩
  split_ifs
  · exact not_mem_nil
  · rw [mem_cons, not_or]
    exact ⟨by decide, h.headed.1⟩

theorem header_getLast_ne {t : List Char} (ht : Utf8.encode t = h.header) :
    t.getLast? ≠ some '\r' := by
  intro hlast
  by_cases hnil : h.heading = []
  · have hranges : t = h.ranges := by
      rw [header, if_pos hnil, append_nil] at ht
      rw [← Utf8.lossy_encode t, ht, Utf8.lossy_encode]
    rw [hranges] at hlast
    exact h.not_mem_ranges (by decide) (by decide) (mem_of_getLast? hlast)
  · obtain ⟨init, rfl⟩ := getLast?_eq_some_iff.mp hlast
    rw [header, if_neg hnil, Utf8.encode_append] at ht
    have hbyte := congrArg List.getLast? ht
    rw [show Utf8.encode ['\r'] = [0x0D] from rfl, getLast?_concat,
      getLast?_append_of_ne_nil _ (cons_ne_nil _ _), getLast?_cons_of_ne_nil hnil] at hbyte
    exact (h.headed.2 0x0D hbyte.symm).2.2 rfl

/-- **A header is read as it was, or its heading is cut** in the middle of a character. -/
theorem encode_headerText_iff :
    Utf8.encode h.headerText = h.header ↔ ∃ t, Utf8.encode t = h.heading := by
  rw [headerText, Output.encode_stripCr_iff]
  constructor
  · rintro ⟨t, ht, -⟩
    rw [← Utf8.encode_lossy_iff]
    have hsame := Utf8.encode_lossy_iff.mpr ⟨t, ht⟩
    rw [lossy_header, Utf8.encode_append, header, append_cancel_left_eq] at hsame
    split_ifs at hsame with hnil
    · rw [hnil]
      rfl
    · exact tail_eq_of_cons_eq hsame
  · rintro ⟨t, ht⟩
    have hencode : Utf8.encode (h.ranges ++ if h.heading = [] then [] else ' ' :: t) = h.header := by
      rw [Utf8.encode_append, header]
      split_ifs
      · rfl
      · rw [← ht]
        rfl
    exact ⟨_, hencode, h.header_getLast_ne hencode⟩

theorem mem_body {l : List UInt8} (hl : l ∈ h.body) :
    ∃ sign rest, l = Utf8.encode [sign] ++ rest ∧ sign ∈ ['-', '+', '\\'] ∧ (0x0A : UInt8) ∉ l := by
  have hremoved : ∀ l ∈ h.minus, ∃ sign rest,
      l = Utf8.encode [sign] ++ rest ∧ sign ∈ ['-', '+', '\\'] ∧ (0x0A : UInt8) ∉ l := by
    rintro l hl
    obtain ⟨text, htext, rfl⟩ := mem_map.mp hl
    refine ⟨'-', text, rfl, by decide, ?_⟩
    rw [mem_cons, not_or]
    exact ⟨by decide, h.lines text (mem_append_left _ htext)⟩
  have hadded : ∀ l ∈ h.plus, ∃ sign rest,
      l = Utf8.encode [sign] ++ rest ∧ sign ∈ ['-', '+', '\\'] ∧ (0x0A : UInt8) ∉ l := by
    rintro l hl
    obtain ⟨text, htext, rfl⟩ := mem_map.mp hl
    refine ⟨'+', text, rfl, by decide, ?_⟩
    rw [mem_cons, not_or]
    exact ⟨by decide, h.lines text (mem_append_right _ htext)⟩
  have hopen : ∀ (b : Bool), ∀ l ∈ (if b = true then [noNewline] else []), ∃ sign rest,
      l = Utf8.encode [sign] ++ rest ∧ sign ∈ ['-', '+', '\\'] ∧ (0x0A : UInt8) ∉ l := by
    intro b l hl
    split_ifs at hl
    · rw [mem_singleton.mp hl, noNewline, ascii]
      exact ⟨'\\', Utf8.encode " No newline at end of file".toList, rfl, by decide,
        Utf8.newline_not_mem_encode (by decide)⟩
    · cases hl
  rw [body, mem_append, mem_append, mem_append] at hl
  rcases hl with ((hl | hl) | hl) | hl
  · exact hremoved l hl
  · exact hopen _ l hl
  · exact hadded l hl
  · exact hopen _ l hl

theorem body_ne_nil : h.body ≠ [] := by
  intro hnil
  simp only [body, append_eq_nil_iff] at hnil
  rcases h.changes with hne | hne
  · exact hne (map_eq_nil_iff.mp hnil.1.1.1)
  · exact hne (map_eq_nil_iff.mp hnil.1.2)

theorem mem_lines {l : List UInt8} (hl : l ∈ h.header :: h.body) :
    (0x0A : UInt8) ∉ l ∧ Output.Solid (Utf8.lossy l) := by
  rcases mem_cons.mp hl with rfl | hl
  · refine ⟨h.newline_not_mem_header, '@', ?_⟩
    rw [lossy_header]
    exact ⟨_, rfl, by decide⟩
  · obtain ⟨sign, rest, rfl, hsign, hfree⟩ := h.mem_body hl
    refine ⟨hfree, sign, Utf8.lossy rest, Utf8.lossy_encode_append _ _, ?_⟩
    have hsigns : ∀ c ∈ ['-', '+', '\\'], Text.isWhitespace c = false := Text.forall_of_all rfl
    exact hsigns sign hsign

theorem mem_seen {last : Bool} {s : List Char} (hs : s ∈ Output.seen last h.body) :
    (∃ c rest, s = c :: rest ∧ c ∈ ['-', '+', '\\']) ∧ '\n' ∉ s := by
  obtain ⟨l, hl, ⟨tail, htail⟩, hne⟩ := Output.begins_of_mem_seen hs
  obtain ⟨hfree, hsolid⟩ := h.mem_lines (mem_cons_of_mem _ hl)
  constructor
  · obtain ⟨c, rest, rfl⟩ := exists_cons_of_ne_nil (hne hsolid)
    obtain ⟨sign, raw, rfl, hsign, -⟩ := h.mem_body hl
    rw [Utf8.lossy_encode_append] at htail
    obtain rfl : c = sign := head_eq_of_cons_eq htail
    exact ⟨c, rest, rfl, hsign⟩
  · intro hmem
    exact Utf8.newline_not_mem_lossy hfree (htail ▸ mem_append_left _ hmem)

end PrintedHunk

/-! ### A file's header -/

namespace PrintedFile

variable (f : PrintedFile)

theorem printable_oldLabel : ∀ c ∈ f.oldLabel, Printable c := by
  rw [oldLabel]
  split_ifs
  · exact Text.forall_of_all rfl
  · exact printable_printName _

theorem printable_newLabel : ∀ c ∈ f.newLabel, Printable c := by
  rw [newLabel]
  split_ifs
  · exact Text.forall_of_all rfl
  · exact printable_printName _

variable {l : List Char}

theorem mem_header (hl : l ∈ f.header) :
    (∃ c rest, l = c :: rest ∧ c ∈ "donrsciB-+".toList) ∧ ∀ c ∈ l, Printable c ∨ c = '\t' := by
  have hword : ∀ word : HeaderWord,
      (∃ c rest, word.text.toList = c :: rest ∧ c ∈ "donrsciB-+".toList) ∧
        ∀ c ∈ word.text.toList, Printable c := by
    intro word
    cases word <;> exact ⟨⟨_, _, rfl, by decide⟩, Text.forall_of_all rfl⟩
  have hpair : ∀ (sign label : List Char), (∀ c ∈ sign, Printable c) → (∀ c ∈ label, Printable c) →
      ∀ c ∈ sign ++ pairLabel label, Printable c ∨ c = '\t' := by
    intro sign label hsign hlabel c hc
    rw [pairLabel, mem_append, mem_append] at hc
    rcases hc with hc | hc | hc
    · exact .inl (hsign c hc)
    · exact .inl (hlabel c hc)
    · split_ifs at hc
      · exact .inr (mem_singleton.mp hc)
      · cases hc
  rw [header, cons_append, mem_cons, mem_append] at hl
  rcases hl with rfl | hl | hl
  · refine ⟨⟨_, _, rfl, by decide⟩, fun c hc => .inl ?_⟩
    rw [mem_append, mem_append, mem_cons] at hc
    rcases hc with (hc | hc) | rfl | hc
    · exact Text.forall_of_all (l := "diff --git ".toList) rfl c hc
    · exact printable_printName _ c hc
    · decide
    · exact printable_printName _ c hc
  · obtain ⟨e, -, rfl⟩ := mem_map.mp hl
    obtain ⟨⟨c, rest, heq, hc⟩, hprintable⟩ := hword e.word
    refine ⟨⟨c, rest ++ e.value, by rw [ExtendedHeader.line, heq, cons_append], hc⟩,
      fun c hc => .inl ?_⟩
    exact (mem_append.mp hc).elim (hprintable c) (e.printable c)
  · split_ifs at hl
    · cases hl
    · rw [pair, mem_cons, mem_singleton] at hl
      rcases hl with rfl | rfl
      · exact ⟨⟨_, _, rfl, by decide⟩, hpair _ _ (Text.forall_of_all rfl) f.printable_oldLabel⟩
      · exact ⟨⟨_, _, rfl, by decide⟩, hpair _ _ (Text.forall_of_all rfl) f.printable_newLabel⟩

theorem solid_header (hl : l ∈ f.header) : Output.Solid l := by
  obtain ⟨⟨c, rest, rfl, hc⟩, -⟩ := f.mem_header hl
  have hstarts : ∀ c ∈ "donrsciB-+".toList, Text.isWhitespace c = false := Text.forall_of_all rfl
  exact ⟨c, rest, rfl, hstarts c hc⟩

theorem not_begins_header (hl : l ∈ f.header) : ¬ "@@".toList <+: l := by
  obtain ⟨⟨c, rest, rfl, hc⟩, -⟩ := f.mem_header hl
  rw [show "@@".toList = ['@', '@'] from rfl, cons_prefix_cons]
  rintro ⟨rfl, -⟩
  exact absurd hc (by decide)

theorem not_mem_header (hl : l ∈ f.header) : '\n' ∉ l ∧ '\r' ∉ l := by
  have hnot : ∀ c : Char, ¬ Printable c → c ≠ '\t' → c ∉ l := fun c hprintable htab hmem =>
    ((f.mem_header hl).2 c hmem).elim hprintable htab
  exact ⟨hnot '\n' (by decide) (by decide), hnot '\r' (by decide) (by decide)⟩

theorem seen_header : Output.seen false (f.header.map Utf8.encode) = f.header := by
  rw [Output.seen_false, map_map]
  conv_rhs => rw [← map_id f.header]
  refine map_congr_left (fun l hl => ?_)
  have hlast : l.getLast? ≠ some '\r' := fun hmem =>
    (f.not_mem_header hl).2 (mem_of_getLast? hmem)
  rw [Function.comp_apply, Utf8.lossy_encode, Output.stripCr_eq_self_iff.mpr hlast]
  rfl

theorem mem_lines {l : List UInt8} (hl : l ∈ f.lines) :
    (0x0A : UInt8) ∉ l ∧ Output.Solid (Utf8.lossy l) := by
  rw [lines, mem_append] at hl
  rcases hl with hl | hl
  · obtain ⟨text, htext, rfl⟩ := mem_map.mp hl
    rw [Utf8.lossy_encode]
    exact ⟨Utf8.newline_not_mem_encode (f.not_mem_header htext).1, f.solid_header htext⟩
  · obtain ⟨h, -, hl⟩ := mem_flatMap.mp hl
    exact h.mem_lines hl

end PrintedFile

/-- **What a diff is read as.** -/
theorem lines_printDiff (files : List PrintedFile) :
    Text.lines (stdoutText (printDiff files)) = Output.seen true (files.flatMap PrintedFile.lines) := by
  rw [stdoutText, printDiff]
  refine Output.lines_unlines_trim (fun l hl => ?_)
  obtain ⟨f, -, hl⟩ := mem_flatMap.mp hl
  exact f.mem_lines hl

/-! ### The blocks -/

def bodyText (last : Bool) (h : PrintedHunk) : List (List Char) :=
  (Output.seen last h.body).filter (fun l => !isFileHeader l)

/-- The blocks of a file, of which the last hunk ends the diff. -/
def blocksOf : List PrintedHunk → List (List Char × List (List Char))
  | [] => []
  | h :: rest => (h.headerText, bodyText rest.isEmpty h) :: blocksOf rest

theorem seen_hunks (last : Bool) (h : PrintedHunk) (rest : List PrintedHunk) :
    Output.seen last ((h :: rest).flatMap (fun h => h.header :: h.body))
      = h.headerText :: Output.seen (last && rest.isEmpty) h.body
        ++ Output.seen last (rest.flatMap (fun h => h.header :: h.body)) := by
  have hempty : (rest.flatMap (fun h => h.header :: h.body)).isEmpty = rest.isEmpty := by
    cases rest <;> rfl
  rw [flatMap_cons, Output.seen_append, hempty, Output.seen,
    if_neg (fun hlast => h.body_ne_nil hlast.2)]
  rfl

namespace HunkBlocks

theorem read_fileHeader {s : HunkBlocks} {line : List Char} (hline : isFileHeader line = true) :
    s.read line
      = if s.blocks = [] then { s with fileHeader := s.fileHeader ++ line ++ ['\n'] } else s :=
  if_pos hline

theorem foldl_header {ls : List (List Char)} (hls : ∀ l ∈ ls, ¬ "@@".toList <+: l) :
    ∀ fileHeader, ls.foldl read ⟨fileHeader, []⟩
      = ⟨fileHeader ++ Output.unlinesText (ls.filter isFileHeader), []⟩ := by
  induction ls with
  | nil =>
    intro fileHeader
    rw [filter_nil, Output.unlinesText, flatMap_nil, append_nil]
    rfl
  | cons l ls ih =>
    intro fileHeader
    obtain ⟨hl, hls⟩ := forall_mem_cons.mp hls
    rw [foldl_cons]
    by_cases hheader : isFileHeader l = true
    · rw [read_fileHeader hheader, if_pos rfl, ih hls, filter_cons_of_pos hheader,
        Output.unlinesText_cons, append_assoc, append_assoc]
      rfl
    · have hread : read ⟨fileHeader, []⟩ l = ⟨fileHeader, []⟩ := by
        rw [read, if_neg hheader, if_neg hl]
        rfl
      rw [hread, ih hls, filter_cons_of_neg hheader]

theorem foldl_body {ls : List (List Char)} (hls : ∀ l ∈ ls, ¬ "@@".toList <+: l)
    (fileHeader : List Char) (blocks : List (List Char × List (List Char))) (header : List Char) :
    ∀ body, ls.foldl read ⟨fileHeader, blocks ++ [(header, body)]⟩
      = ⟨fileHeader, blocks ++ [(header, body ++ ls.filter (fun l => !isFileHeader l))]⟩ := by
  induction ls with
  | nil =>
    intro body
    rw [filter_nil, append_nil]
    rfl
  | cons l ls ih =>
    intro body
    obtain ⟨hl, hls⟩ := forall_mem_cons.mp hls
    have hne : blocks ++ [(header, body)] ≠ [] :=
      append_ne_nil_of_right_ne_nil _ (cons_ne_nil _ _)
    rw [foldl_cons]
    by_cases hheader : isFileHeader l = true
    · rw [read_fileHeader hheader, if_neg hne, ih hls, filter_cons_of_neg (by rw [hheader]; decide)]
    · have hread : read ⟨fileHeader, blocks ++ [(header, body)]⟩ l
          = ⟨fileHeader, blocks ++ [(header, body ++ [l])]⟩ := by
        rw [read, if_neg hheader, if_neg hl]
        rw [getLast?_concat, dropLast_concat]
      rw [hread, ih hls, filter_cons_of_pos (by rw [Bool.eq_false_iff.mpr hheader]; rfl),
        append_assoc, singleton_append]

theorem foldl_hunks (hunks : List PrintedHunk) :
    ∀ (fileHeader : List Char) (blocks : List (List Char × List (List Char))),
      (Output.seen true (hunks.flatMap (fun h => h.header :: h.body))).foldl read ⟨fileHeader, blocks⟩
        = ⟨fileHeader, blocks ++ blocksOf hunks⟩ := by
  induction hunks with
  | nil =>
    intro fileHeader blocks
    rw [blocksOf, append_nil]
    rfl
  | cons h rest ih =>
    intro fileHeader blocks
    have hbody : ∀ l ∈ Output.seen rest.isEmpty h.body, ¬ "@@".toList <+: l := by
      intro l hl hbegin
      obtain ⟨⟨c, tail, rfl, hsign⟩, -⟩ := h.mem_seen hl
      rw [show "@@".toList = ['@', '@'] from rfl, cons_prefix_cons] at hbegin
      exact absurd (hbegin.1 ▸ hsign) (by decide)
    have hread : read ⟨fileHeader, blocks⟩ h.headerText
        = ⟨fileHeader, blocks ++ [(h.headerText, [])]⟩ := by
      obtain ⟨tail, htail⟩ := h.headerText_eq
      rw [htail, read, if_neg (by unfold PrintedHunk.ranges; exact Bool.false_ne_true), if_pos]
      exact List.IsPrefix.trans (by decide : "@@".toList <+: "@@ -".toList) (h.begins_ranges tail)
    rw [seen_hunks, Bool.true_and, cons_append, foldl_cons, hread, foldl_append,
      foldl_body hbody, ih, blocksOf, nil_append, append_assoc, singleton_append]
    rfl

end HunkBlocks

theorem find_blocksOf {h : PrintedHunk} {rest : List PrintedHunk} :
    ∀ {earlier : List PrintedHunk}, (∀ g ∈ earlier, g.newStart < h.newStart) →
      (blocksOf (earlier ++ h :: rest)).find? (fun b => hunkNewStart b.1 = some h.newStart)
        = some (h.headerText, bodyText rest.isEmpty h) := by
  intro earlier
  induction earlier with
  | nil =>
    intro _
    obtain ⟨tail, htail⟩ := h.headerText_eq
    have hstart : decide (hunkNewStart h.headerText = some h.newStart) = true :=
      decide_eq_true (by rw [htail, h.hunkNewStart_ranges])
    rw [nil_append, blocksOf, find?_cons]
    rw [hstart]
  | cons g earlier ih =>
    intro hearlier
    obtain ⟨hg, hearlier⟩ := forall_mem_cons.mp hearlier
    obtain ⟨tail, htail⟩ := g.headerText_eq
    have hstart : decide (hunkNewStart g.headerText = some h.newStart) = false := by
      rw [htail, g.hunkNewStart_ranges, decide_eq_false_iff_not, Option.some.injEq]
      exact Nat.ne_of_lt hg
    rw [cons_append, blocksOf, find?_cons]
    rw [hstart]
    exact ih hearlier

/-! ### The patch -/

/-- The lines of the patch; a hunk without lines has an empty one. -/
def patchLines (f : PrintedFile) (last : Bool) (h : PrintedHunk) : List (List Char) :=
  f.header.filter isFileHeader ++ h.headerText
    :: if bodyText last h = [] then [[]] else bodyText last h

theorem unlinesText_eq {ls : List (List Char)} (h : ls ≠ []) :
    Output.unlinesText ls = ['\n'].intercalate ls ++ ['\n'] := by
  induction ls with
  | nil => exact absurd rfl h
  | cons l ls ih =>
    cases ls with
    | nil =>
      rw [Output.unlinesText_cons, intercalate_singleton]
      rfl
    | cons m ms =>
      rw [Output.unlinesText_cons, ih (cons_ne_nil m ms),
        intercalate_cons_of_ne_nil (cons_ne_nil m ms), append_assoc, append_assoc]
      rfl

/-- **The patch of a hunk of a printed diff.** -/
theorem rejectPatch_printed {f : PrintedFile} {earlier rest : List PrintedHunk} {h : PrintedHunk}
    (hhunks : f.hunks = earlier ++ h :: rest) (path : List Char) :
    rejectPatch path h.newStart (stdoutText (printDiff [f]))
      = .ok (some (Output.unlinesText (patchLines f rest.isEmpty h))) := by
  have hordered := f.ordered
  rw [hhunks, pairwise_append] at hordered
  have hearlier : ∀ g ∈ earlier, g.newStart < h.newStart :=
    fun g hg => hordered.2.2 g hg h mem_cons_self
  have hsome : (f.hunks.flatMap (fun h => h.header :: h.body)).isEmpty = false := by
    rw [hhunks, flatMap_append, flatMap_cons, Bool.eq_false_iff]
    intro hempty
    have := isEmpty_iff.mp hempty
    exact append_ne_nil_of_right_ne_nil _ (cons_ne_nil _ _) this
  have hlines : Text.lines (stdoutText (printDiff [f]))
      = f.header ++ Output.seen true (f.hunks.flatMap (fun h => h.header :: h.body)) := by
    rw [lines_printDiff, flatMap_singleton, PrintedFile.lines, Output.seen_append, hsome,
      Bool.and_false, f.seen_header]
  have htext : stdoutText (printDiff [f]) ≠ [] := by
    intro hnil
    rw [hnil, PrintedFile.header] at hlines
    exact cons_ne_nil _ _ hlines.symm
  have hpatch : ∀ body : List (List Char),
      Output.unlinesText (f.header.filter isFileHeader) ++ h.headerText ++ '\n'
          :: ['\n'].intercalate body ++ ['\n']
        = Output.unlinesText (f.header.filter isFileHeader ++ h.headerText
          :: if body = [] then [[]] else body) := by
    intro body
    rw [Output.unlinesText_append, Output.unlinesText_cons, append_assoc, append_assoc]
    split_ifs with hnil
    · rw [hnil]
      rfl
    · rw [unlinesText_eq hnil, cons_append]
  rw [rejectPatch, if_neg htext, hlines, foldl_append,
    HunkBlocks.foldl_header (fun l hl => f.not_begins_header hl), HunkBlocks.foldl_hunks, hhunks]
  dsimp only
  rw [nil_append, find_blocksOf hearlier]
  exact congrArg (fun patch => Except.ok (some patch)) (hpatch (bodyText rest.isEmpty h))

/-- A line that is read as it was and is taken for no file's header. -/
def ReadAsContent (l : List UInt8) : Prop :=
  ∃ t, Utf8.encode t = l ∧ t.getLast? ≠ some '\r' ∧
    ¬ "--- ".toList <+: t ∧ ¬ "+++ ".toList <+: t

theorem forall_isFileHeader_iff (f : PrintedFile) :
    (∀ l ∈ f.header, isFileHeader l = true) ↔ ∀ e ∈ f.extended, e.word = .index := by
  have hline : ∀ e : ExtendedHeader, isFileHeader e.line = true ↔ e.word = .index := by
    intro e
    rw [ExtendedHeader.line]
    cases e.word <;> simp [isFileHeader, HeaderWord.text]
  rw [PrintedFile.header, cons_append, forall_mem_cons]
  constructor
  · exact fun h e he => (hline e).mp
      (h.2 _ (mem_append_left _ (mem_map_of_mem he)))
  · refine fun h => ⟨rfl, fun l hl => ?_⟩
    rcases mem_append.mp hl with hl | hl
    · obtain ⟨e, he, rfl⟩ := mem_map.mp hl
      exact (hline e).mpr (h e he)
    · split_ifs at hl
      · cases hl
      · rw [PrintedFile.pair, mem_cons, mem_singleton] at hl
        rcases hl with rfl | rfl <;> rfl

theorem isFileHeader_signed (rest : List Char) (hc : c ∈ ['-', '+', '\\']) :
    isFileHeader (c :: rest) = true ↔
      "--- ".toList <+: c :: rest ∨ "+++ ".toList <+: c :: rest := by
  have hdiff : ¬ "diff --git ".toList <+: c :: rest := fun hbegin =>
    absurd ((cons_prefix_cons.mp hbegin).1 ▸ hc) (by decide)
  have hindex : ¬ "index ".toList <+: c :: rest := fun hbegin =>
    absurd ((cons_prefix_cons.mp hbegin).1 ▸ hc) (by decide)
  rw [isFileHeader, Bool.or_eq_true, Bool.or_eq_true, Bool.or_eq_true, isPrefixOf_iff_prefix,
    isPrefixOf_iff_prefix, isPrefixOf_iff_prefix, isPrefixOf_iff_prefix]
  exact ⟨fun h => h.elim (fun h => .inl (h.resolve_left (not_or.mpr ⟨hdiff, hindex⟩))) .inr,
    fun h => h.elim (fun h => .inl (.inr h)) .inr⟩

theorem readAsContent_iff (h : PrintedHunk) {l : List UInt8} (hl : l ∈ h.body) :
    (∃ t, Utf8.encode t = l ∧ t.getLast? ≠ some '\r' ∧ (!isFileHeader t) = true) ↔
      ReadAsContent l := by
  obtain ⟨sign, raw, rfl, hsign, -⟩ := h.mem_body hl
  have hbegin : ∀ t, Utf8.encode t = Utf8.encode [sign] ++ raw → t = sign :: Utf8.lossy raw := by
    intro t ht
    rw [← Utf8.lossy_encode t, ht, Utf8.lossy_encode_append]
    rfl
  refine exists_congr (fun t => and_congr_right (fun ht => and_congr_right (fun _ => ?_)))
  rw [Bool.not_eq_true', ← Bool.not_eq_true, hbegin t ht, isFileHeader_signed _ hsign, not_or]

theorem forall_body_iff (h : PrintedHunk) :
    (∀ l ∈ h.body, ∃ t, Utf8.encode t = l ∧ t.getLast? ≠ some '\r' ∧ (!isFileHeader t) = true) ↔
      ∀ l ∈ h.content, ReadAsContent l := by
  have hnote : ReadAsContent PrintedHunk.noNewline :=
    ⟨"\\ No newline at end of file".toList, rfl, by decide, by decide, by decide⟩
  have hopen : ∀ b : Bool, ∀ l ∈ (if b = true then [PrintedHunk.noNewline] else []),
      ReadAsContent l := by
    intro b l hl
    split_ifs at hl
    · exact mem_singleton.mp hl ▸ hnote
    · cases hl
  have hbody : (∀ l ∈ h.body, ReadAsContent l) ↔ ∀ l ∈ h.content, ReadAsContent l := by
    rw [PrintedHunk.body, PrintedHunk.content]
    simp only [forall_mem_append]
    exact ⟨fun hall => ⟨hall.1.1.1, hall.1.2⟩,
      fun hall => ⟨⟨⟨hall.1, hopen _⟩, hall.2⟩, hopen _⟩⟩
  rw [← hbody]
  exact forall₂_congr (fun l hl => readAsContent_iff h hl)

theorem newline_not_mem_patchLines (f : PrintedFile) (last : Bool) (h : PrintedHunk) :
    ∀ l ∈ (patchLines f last h).map Utf8.encode, (0x0A : UInt8) ∉ l := by
  intro l hl
  obtain ⟨text, htext, rfl⟩ := mem_map.mp hl
  refine Utf8.newline_not_mem_encode ?_
  rw [patchLines, mem_append, mem_cons] at htext
  rcases htext with htext | htext | htext
  · exact (f.not_mem_header (mem_filter.mp htext).1).1
  · rw [htext]
    exact Text.not_mem_stripCr (Utf8.newline_not_mem_lossy h.newline_not_mem_header)
  · split_ifs at htext
    · rw [mem_singleton.mp htext]
      exact not_mem_nil
    · exact (h.mem_seen (mem_filter.mp htext).1).2

/-- **When the patch is the file's header and the hunk.** -/
theorem patch_iff (f : PrintedFile) (last : Bool) (h : PrintedHunk) :
    Utf8.encode (Output.unlinesText (patchLines f last h))
        = Output.unlines (f.header.map Utf8.encode ++ h.header :: h.body) ↔
      (∀ e ∈ f.extended, e.word = .index) ∧ (∃ t, Utf8.encode t = h.heading) ∧
        (∀ l ∈ h.content, ReadAsContent l) ∧ (last = true → Output.EndsSolid h.body) := by
  rw [← forall_isFileHeader_iff, ← h.encode_headerText_iff, ← forall_body_iff,
    ← Output.map_encode_seen_iff (fun t => !isFileHeader t) last h.body, Output.encode_unlinesText]
  have hprinted : ∀ l ∈ f.header.map Utf8.encode ++ h.header :: h.body, (0x0A : UInt8) ∉ l := by
    intro l hl
    rcases mem_append.mp hl with hl | hl
    · obtain ⟨text, htext, rfl⟩ := mem_map.mp hl
      exact Utf8.newline_not_mem_encode (f.not_mem_header htext).1
    · exact (h.mem_lines hl).1
  constructor
  · intro heq
    have hlines := Output.unlines_inj (newline_not_mem_patchLines f last h) hprinted heq
    rw [patchLines, map_append, map_cons] at hlines
    -- neither of the two parts can grow
    have hheader := length_filter_le isFileHeader f.header
    have hkept : (if bodyText last h = [] then [[]] else bodyText last h).length ≤ h.body.length := by
      split_ifs
      · exact length_pos_iff.mpr h.body_ne_nil
      · rw [← Output.length_seen last h.body]
        exact length_filter_le _ _
    have hlength := congrArg List.length hlines
    simp only [length_append, length_cons, length_map] at hlength
    have hall : (f.header.filter isFileHeader).length = f.header.length := by omega
    obtain ⟨-, hhunk⟩ := append_inj hlines (by rw [length_map, length_map, hall])
    obtain ⟨hhead, hbody⟩ := List.cons.inj hhunk
    refine ⟨length_filter_eq_length_iff.mp hall, hhead, ?_⟩
    split_ifs at hbody
    · obtain ⟨sign, raw, hnil, -⟩ := h.mem_body (l := []) (hbody ▸ mem_cons_self)
      exact absurd hnil.symm (append_ne_nil_of_left_ne_nil (encode_ne_nil (cons_ne_nil _ _)) _)
    · exact hbody
  · rintro ⟨hheader, hhead, hbody⟩
    have hne : bodyText last h ≠ [] := by
      intro hnil
      rw [← bodyText, hnil] at hbody
      exact h.body_ne_nil hbody.symm
    rw [patchLines, if_neg hne, filter_eq_self.mpr hheader, map_append, map_cons,
      hhead, bodyText, hbody]

end Git

end Modbit
