import Modbit.Git.RejectedHunks

/-!
# Hunks that come back

`hunks_exact_iff`: the hunks of a diff are parsed as they are, and the patch of each is the header of its
file and the hunk, exactly when every file with hunks is legible (`Legible`).  The lines of a file
whose path is not found stay with the parser, and are the first of the next hunk that has a path
(`held_files`).
-/

namespace Modbit

open Lib List

namespace Git

/-- The hunks that are parsed, and the patches that are built, are those of the diff. -/
structure HunksExact (files : List PrintedFile) : Prop where
  parsed : (parseHunks (stdoutText (printDiff files))).map
      (fun h => (Utf8.encode h.path, h.newStart, h.lines.map Utf8.encode))
    = files.flatMap (fun f => f.hunks.map (fun h => (f.path, h.newStart, h.content)))
  rejected : ∀ f ∈ files, ∀ h ∈ f.hunks, ∀ path, ∃ patch,
    rejectPatch path h.newStart (stdoutText (printDiff [f])) = .ok (some patch) ∧
      Utf8.encode patch = Output.unlines (f.header.map Utf8.encode ++ h.header :: h.body)

/-- A byte that is printed as it is, and is no blank. -/
def PlainByte (b : UInt8) : Prop :=
  0x20 < b.toNat ∧ b.toNat < 0x7f ∧ b.toNat ≠ 0x22 ∧ b.toNat ≠ 0x5c

/-- A file whose hunks are told apart from headers, and lose nothing where they are trimmed. -/
structure Legible (f : PrintedFile) : Prop where
  kept : f.status ≠ .deleted
  named : ∀ b ∈ f.newName, PlainByte b
  extended : ∀ e ∈ f.extended, e.word = .index
  headings : ∀ h ∈ f.hunks, ∃ t, Utf8.encode t = h.heading
  content : ∀ h ∈ f.hunks, ∀ l ∈ h.content, ReadAsContent l
  ending : ∀ h ∈ f.hunks.getLast?, Output.EndsSolid h.body

/-! ### Patches -/

theorem rejected_iff {f : PrintedFile} (hne : f.hunks ≠ []) :
    (∀ h ∈ f.hunks, ∀ path, ∃ patch,
      rejectPatch path h.newStart (stdoutText (printDiff [f])) = .ok (some patch) ∧
        Utf8.encode patch = Output.unlines (f.header.map Utf8.encode ++ h.header :: h.body)) ↔
      (∀ e ∈ f.extended, e.word = .index) ∧
        (∀ h ∈ f.hunks, (∃ t, Utf8.encode t = h.heading) ∧ ∀ l ∈ h.content, ReadAsContent l) ∧
        ∀ h ∈ f.hunks.getLast?, Output.EndsSolid h.body := by
  have hone : ∀ {earlier rest : List PrintedHunk} {h : PrintedHunk},
      f.hunks = earlier ++ h :: rest → ((∀ path, ∃ patch,
        rejectPatch path h.newStart (stdoutText (printDiff [f])) = .ok (some patch) ∧
          Utf8.encode patch = Output.unlines (f.header.map Utf8.encode ++ h.header :: h.body)) ↔
      (∀ e ∈ f.extended, e.word = .index) ∧ (∃ t, Utf8.encode t = h.heading) ∧
        (∀ l ∈ h.content, ReadAsContent l) ∧ (rest.isEmpty = true → Output.EndsSolid h.body)) := by
    intro earlier rest h hhunks
    rw [← patch_iff]
    constructor
    · intro hall
      obtain ⟨patch, hpatch, hbytes⟩ := hall []
      rw [rejectPatch_printed hhunks] at hpatch
      rw [Option.some.inj (Except.ok.inj hpatch), hbytes]
    · exact fun hbytes path => ⟨_, rejectPatch_printed hhunks path, hbytes⟩
  constructor
  · intro hall
    have hread : ∀ h ∈ f.hunks, (∀ e ∈ f.extended, e.word = .index) ∧
        (∃ t, Utf8.encode t = h.heading) ∧ ∀ l ∈ h.content, ReadAsContent l := by
      intro h hh
      obtain ⟨earlier, rest, hhunks⟩ := append_of_mem hh
      obtain ⟨hextended, hhead, hcontent, -⟩ := (hone hhunks).mp (hall h hh)
      exact ⟨hextended, hhead, hcontent⟩
    obtain ⟨h, hh⟩ := exists_mem_of_ne_nil _ hne
    refine ⟨(hread h hh).1, fun h hh => (hread h hh).2, fun h hlast => ?_⟩
    obtain ⟨earlier, hhunks⟩ := getLast?_eq_some_iff.mp hlast
    exact ((hone hhunks).mp (hall h (mem_of_getLast? hlast))).2.2.2 rfl
  · rintro ⟨hextended, hread, hend⟩ h hh
    obtain ⟨earlier, rest, hhunks⟩ := append_of_mem hh
    refine (hone hhunks).mpr ⟨hextended, (hread h hh).1, (hread h hh).2, fun hlast => hend h ?_⟩
    rw [hhunks, isEmpty_iff.mp hlast, getLast?_concat]
    rfl

/-! ### The parser -/

def contentText (h : PrintedHunk) : List (List Char) := h.content.map Utf8.lossy

theorem seen_body {h : PrintedHunk} {last : Bool} (hcontent : ∀ l ∈ h.content, ReadAsContent l)
    (hend : last = true → Output.EndsSolid h.body) :
    Output.seen last h.body = h.body.map Utf8.lossy ∧
      ∀ s ∈ Output.seen last h.body, isFileHeader s = false := by
  have hkept := (Output.map_encode_seen_iff (fun t => !isFileHeader t) last h.body).mpr
    ⟨(forall_body_iff h).mpr hcontent, hend⟩
  have hlength := congrArg List.length hkept
  rw [length_map, ← Output.length_seen last h.body, length_filter_eq_length_iff] at hlength
  rw [filter_eq_self.mpr hlength] at hkept
  constructor
  · conv_rhs => rw [← hkept, map_map]
    conv_lhs => rw [← map_id (Output.seen last h.body)]
    exact map_congr_left (fun s _ => (Utf8.lossy_encode s).symm)
  · intro s hs
    rw [← Bool.not_eq_true']
    exact hlength s hs

def isChange (l : List Char) : Bool := ['+'].isPrefixOf l || ['-'].isPrefixOf l

theorem filter_isChange (h : PrintedHunk) : (h.body.map Utf8.lossy).filter isChange = contentText h := by
  have hsigned : ∀ (sign : UInt8) (ls : List (List UInt8)), sign = 0x2D ∨ sign = 0x2B →
      ((ls.map (sign :: ·)).map Utf8.lossy).filter isChange = (ls.map (sign :: ·)).map Utf8.lossy := by
    intro sign ls hsign
    refine filter_eq_self.mpr (fun t ht => ?_)
    obtain ⟨l, hl, rfl⟩ := mem_map.mp ht
    obtain ⟨raw, -, rfl⟩ := mem_map.mp hl
    rcases hsign with rfl | rfl <;> rfl
  have hopen : ∀ b : Bool, ((if b = true then [PrintedHunk.noNewline] else []).map
      Utf8.lossy).filter isChange = [] := by decide +kernel
  rw [contentText, PrintedHunk.body, PrintedHunk.content, PrintedHunk.minus, PrintedHunk.plus]
  simp only [map_append, filter_append]
  rw [hsigned 0x2D _ (.inl rfl), hsigned 0x2B _ (.inr rfl), hopen, hopen, append_nil, append_nil]

namespace HunkParse

theorem isChange_iff (l : List Char) : isChange l = true ↔ ['+'] <+: l ∨ ['-'] <+: l := by
  rw [isChange, Bool.or_eq_true, isPrefixOf_iff_prefix, isPrefixOf_iff_prefix]

variable {s : HunkParse}

theorem read_signed (hin : s.inHunk = true) {c : Char} {rest : List Char}
    (hc : c ∈ ['-', '+', '\\']) (hheader : isFileHeader (c :: rest) = false) :
    s.read (c :: rest) = { s with lines := s.lines ++ [c :: rest].filter isChange } := by
  have hplain : ¬ isFileHeader (c :: rest) = true := by rw [hheader]; exact Bool.false_ne_true
  rw [isFileHeader_signed rest hc, not_or] at hplain
  have hdiff : ¬ "diff --git ".toList <+: c :: rest := fun hbegin =>
    absurd ((cons_prefix_cons.mp hbegin).1 ▸ hc) (by decide)
  have hat : ¬ "@@ -".toList <+: c :: rest := fun hbegin =>
    absurd ((cons_prefix_cons.mp hbegin).1 ▸ hc) (by decide)
  have hpath : ¬ "+++ b/".toList <+: c :: rest := fun hbegin =>
    hplain.2 (List.IsPrefix.trans (by decide : "+++ ".toList <+: "+++ b/".toList) hbegin)
  rw [read, if_neg hdiff, if_neg hpath, if_neg hat]
  by_cases hchange : isChange (c :: rest) = true
  · rw [if_pos ⟨hin, (isChange_iff _).mp hchange⟩, filter_cons_of_pos hchange]
    rfl
  · rw [if_neg (fun h => hchange ((isChange_iff _).mpr h.2)), filter_cons_of_neg hchange,
      filter_nil, append_nil]

theorem foldl_body {ls : List (List Char)}
    (hls : ∀ l ∈ ls, (∃ c rest, l = c :: rest ∧ c ∈ ['-', '+', '\\']) ∧ isFileHeader l = false) :
    ∀ {s : HunkParse}, s.inHunk = true →
      ls.foldl read s = { s with lines := s.lines ++ ls.filter isChange } := by
  induction ls with
  | nil =>
    intro s _
    rw [filter_nil, append_nil]
    rfl
  | cons l ls ih =>
    intro s hin
    obtain ⟨⟨hsigned, hheader⟩, hrest⟩ := forall_mem_cons.mp hls
    obtain ⟨c, rest, rfl, hc⟩ := hsigned
    rw [foldl_cons, read_signed hin hc hheader]
    refine (ih hrest (s := { s with lines := s.lines ++ [c :: rest].filter isChange }) hin).trans ?_
    rw [append_assoc, ← filter_append]
    rfl

/-! ### What is held between hunks -/

/-- The hunks found, and the lines that wait for a hunk with a path. -/
def held (s : HunkParse) : List DiffHunk × List (List Char) := (s.push.hunks, s.push.lines)

def settle (path : List Char) (a : List DiffHunk × List (List Char)) (h : PrintedHunk) :
    List DiffHunk × List (List Char) :=
  if path = [] then (a.1, a.2 ++ contentText h)
  else (a.1 ++ [⟨path, h.newStart, a.2 ++ contentText h⟩], [])

theorem contentText_ne_nil (h : PrintedHunk) : contentText h ≠ [] := by
  intro hnil
  rw [contentText, map_eq_nil_iff, PrintedHunk.content, append_eq_nil_iff] at hnil
  rcases h.changes with hne | hne
  · exact hne (map_eq_nil_iff.mp hnil.1)
  · exact hne (map_eq_nil_iff.mp hnil.2)

@[simp] theorem push_path (s : HunkParse) : s.push.path = s.path := by
  rw [push]
  split_ifs <;> rfl

variable {last : Bool}

/-- **A hunk is read.** -/
theorem foldl_hunk {h : PrintedHunk} (hcontent : ∀ l ∈ h.content, ReadAsContent l)
    (hend : last = true → Output.EndsSolid h.body) (s : HunkParse) :
    held ((h.headerText :: Output.seen last h.body).foldl read s) = settle s.path (held s) h ∧
      ((h.headerText :: Output.seen last h.body).foldl read s).path = s.path := by
  obtain ⟨rest, hrest⟩ := h.headerText_eq
  obtain ⟨hseen, hheader⟩ := seen_body hcontent hend
  have hread : s.read h.headerText = { s.push with newStart := h.newStart, inHunk := true } := by
    have hbegin : "@@ -".toList <+: h.headerText := hrest ▸ h.begins_ranges rest
    have hdiff : ¬ "diff --git ".toList <+: h.headerText := by
      rw [hrest]
      exact fun h => absurd (cons_prefix_cons.mp h).1 (by decide)
    have hpath : ¬ "+++ b/".toList <+: h.headerText := by
      rw [hrest]
      exact fun h => absurd (cons_prefix_cons.mp h).1 (by decide)
    rw [read, if_neg hdiff, if_neg hpath, if_pos hbegin, hrest, h.hunkNewStart_ranges]
    rfl
  rw [foldl_cons, hread, foldl_body (fun l hl => ⟨(h.mem_seen hl).1, hheader l hl⟩) rfl, hseen,
    filter_isChange]
  refine ⟨?_, push_path s⟩
  have hlines : s.push.lines ++ contentText h ≠ [] :=
    append_ne_nil_of_right_ne_nil _ (contentText_ne_nil h)
  rw [held, push, settle]
  split_ifs with hpush hpath hpath
  · exact absurd ((push_path s).trans hpath) hpush.2.1
  · rw [← push_path s]
    rfl
  · rfl
  · exact absurd ⟨rfl, (push_path s).symm ▸ hpath, hlines⟩ hpush

def pathRead (f : PrintedFile) : List Char :=
  if "+++ b/".toList <+: "+++ ".toList ++ pairLabel f.newLabel then
    ("+++ ".toList ++ pairLabel f.newLabel).drop 6
  else []

/-- A line that the parser passes over before a hunk. -/
def Passed (l : List Char) : Prop :=
  ¬ "diff --git ".toList <+: l ∧ ¬ "+++ b/".toList <+: l ∧ ¬ "@@ -".toList <+: l

theorem read_passed {l : List Char} (hl : Passed l) (hout : s.inHunk = false) : s.read l = s := by
  rw [read, if_neg hl.1, if_neg hl.2.1, if_neg hl.2.2,
    if_neg (fun h => Bool.false_ne_true (hout.symm.trans h.1))]

theorem foldl_passed {ls : List (List Char)} (hls : ∀ l ∈ ls, Passed l)
    (hout : s.inHunk = false) : ls.foldl read s = s := by
  induction ls with
  | nil => rfl
  | cons l ls ih =>
    obtain ⟨hl, hrest⟩ := forall_mem_cons.mp hls
    rw [foldl_cons, read_passed hl hout, ih hrest]

theorem Passed.begins {l s : List Char} (h : Passed l) (hs : s <+: l) : Passed s :=
  ⟨fun hb => h.1 (hb.trans hs), fun hb => h.2.1 (hb.trans hs), fun hb => h.2.2 (hb.trans hs)⟩

theorem passed_extended (e : ExtendedHeader) : Passed e.line := by
  rw [ExtendedHeader.line]
  cases e.word <;> simp [Passed, HeaderWord.text]

theorem read_diff (s : HunkParse) (rest : List Char) :
    s.read ("diff --git ".toList ++ rest) = { s.push with inHunk := false, path := [] } :=
  if_pos (prefix_append _ _)

variable {f : PrintedFile}

/-- **The header of a file with hunks is read.** -/
theorem foldl_header (hne : f.hunks ≠ []) (s : HunkParse) :
    f.header.foldl read s = { s.push with inHunk := false, path := pathRead f } := by
  have hextended : ∀ l ∈ f.extended.map ExtendedHeader.line, Passed l := by
    intro l hl
    obtain ⟨e, -, rfl⟩ := mem_map.mp hl
    exact passed_extended e
  have hold : Passed ("--- ".toList ++ pairLabel f.oldLabel) :=
    ⟨fun h => absurd (cons_prefix_cons.mp h).1 (by decide),
      fun h => absurd (cons_prefix_cons.mp h).1 (by decide),
      fun h => absurd (cons_prefix_cons.mp h).1 (by decide)⟩
  have hnew : ∀ lead : List Char, lead.head? ≠ some '+' ∧ lead ≠ [] →
      ¬ lead <+: "+++ ".toList ++ pairLabel f.newLabel := by
    rintro lead ⟨hhead, hlead⟩ hbegin
    obtain ⟨c, rest, rfl⟩ := exists_cons_of_ne_nil hlead
    exact hhead (congrArg some (cons_prefix_cons.mp hbegin).1)
  rw [PrintedFile.header, if_neg hne, append_assoc, cons_append, foldl_cons, read_diff,
    foldl_append, foldl_passed hextended rfl, PrintedFile.pair, foldl_cons,
    read_passed hold rfl, foldl_cons, foldl_nil, pathRead]
  split_ifs with hpath
  · rw [read, if_neg (hnew _ (by decide)), if_pos hpath]
  · rw [read, if_neg (hnew _ (by decide)), if_neg hpath, if_neg (hnew _ (by decide)),
      if_neg (fun h => Bool.false_ne_true h.1)]

theorem foldl_hunks {hunks : List PrintedHunk}
    (hcontent : ∀ h ∈ hunks, ∀ l ∈ h.content, ReadAsContent l)
    (hend : ∀ h ∈ hunks.getLast?, Output.EndsSolid h.body) (s : HunkParse) :
    held ((Output.seen last (hunks.flatMap (fun h => h.header :: h.body))).foldl read s)
      = hunks.foldl (settle s.path) (held s) := by
  induction hunks generalizing s with
  | nil => rfl
  | cons h rest ih =>
    obtain ⟨hh, hrest⟩ := forall_mem_cons.mp hcontent
    have hlast : (last && rest.isEmpty) = true → Output.EndsSolid h.body := by
      intro hempty
      rw [Bool.and_eq_true, List.isEmpty_iff] at hempty
      exact hend h (by rw [hempty.2]; rfl)
    have htail : ∀ g ∈ rest.getLast?, Output.EndsSolid g.body := by
      intro g hg
      refine hend g ?_
      rw [getLast?_cons_of_ne_nil (ne_nil_of_mem (mem_of_getLast? hg))]
      exact hg
    obtain ⟨hheld, hpath⟩ := foldl_hunk hh hlast s
    rw [seen_hunks, foldl_append, ih hrest htail, hpath, hheld, foldl_cons]

theorem held_out (hout : s.inHunk = false) : held s = (s.hunks, s.lines) := by
  rw [held, push, if_neg (fun h => Bool.false_ne_true (hout.symm.trans h.1))]

theorem exists_label (name : List UInt8) :
    ∃ c ∈ label "a/" name, Text.isWhitespace c = false := by
  rw [label]
  rcases printName_cases ("a/".toList.map (fun c => Fin.ofNat 256 c.toNat)
    ++ name.map (fun b => Fin.ofNat 256 b.toNat)) with heq | ⟨heq, -⟩
  · exact ⟨'\x22', by rw [heq]; exact mem_cons_self, by decide⟩
  · exact ⟨'a', by rw [heq]; exact mem_cons_self, by decide⟩

theorem begins_diff (cut : Prop) [Decidable cut] {line : List Char}
    (hline : line = "diff --git ".toList ++ label "a/" f.oldName ++ ' ' :: label "b/" f.newName)
    (hfree : '\r' ∉ line) :
    ∃ rest, (if cut then Text.dropEndWhile Text.isWhitespace line else Text.stripCr line)
      = "diff --git ".toList ++ rest := by
  split_ifs
  · obtain ⟨c, hc, hws⟩ := exists_label f.oldName
    rw [hline, append_assoc]
    exact ⟨_, Output.dropEndWhile_append _ ⟨c, mem_append_left _ hc, hws⟩⟩
  · rw [Output.stripCr_eq_self_iff.mpr (fun h => hfree (mem_of_getLast? h)), hline, append_assoc]
    exact ⟨_, rfl⟩

/-- **A file is read.** -/
theorem held_file (hcontent : ∀ h ∈ f.hunks, ∀ l ∈ h.content, ReadAsContent l)
    (hend : ∀ h ∈ f.hunks.getLast?, Output.EndsSolid h.body) (s : HunkParse) :
    held ((Output.seen last f.lines).foldl read s) = f.hunks.foldl (settle (pathRead f)) (held s) := by
  by_cases hne : f.hunks = []
  · have hheader : f.header = ("diff --git ".toList ++ label "a/" f.oldName
        ++ ' ' :: label "b/" f.newName) :: f.extended.map ExtendedHeader.line := by
      rw [PrintedFile.header, if_pos hne, append_nil]
    obtain ⟨rest, hrest⟩ := begins_diff (last = true ∧ (f.extended.map ExtendedHeader.line).map
      Utf8.encode = []) (f := f) rfl (f.not_mem_header (hheader ▸ mem_cons_self)).2
    have hpassed : ∀ l ∈ Output.seen last ((f.extended.map ExtendedHeader.line).map Utf8.encode),
        Passed l := by
      intro l hl
      obtain ⟨raw, hraw, hbegin, -⟩ := Output.begins_of_mem_seen hl
      obtain ⟨text, htext, rfl⟩ := mem_map.mp hraw
      obtain ⟨e, -, rfl⟩ := mem_map.mp htext
      rw [Utf8.lossy_encode] at hbegin
      exact (passed_extended e).begins hbegin
    rw [PrintedFile.lines, hne, flatMap_nil, append_nil, hheader, map_cons,
      Output.seen, Utf8.lossy_encode, hrest, foldl_cons, read_diff, foldl_passed hpassed rfl,
      held_out rfl]
    rfl
  · have hsome : (f.hunks.flatMap (fun h => h.header :: h.body)).isEmpty = false := by
      obtain ⟨h, rest, hhunks⟩ := exists_cons_of_ne_nil hne
      rw [hhunks]
      rfl
    rw [PrintedFile.lines, Output.seen_append, hsome, Bool.and_false, f.seen_header,
      foldl_append, foldl_header hne, foldl_hunks hcontent hend, held_out rfl]
    rfl

/-- **A diff is read**, a file at a time. -/
theorem held_files {files : List PrintedFile}
    (hcontent : ∀ f ∈ files, ∀ h ∈ f.hunks, ∀ l ∈ h.content, ReadAsContent l)
    (hend : ∀ f ∈ files, ∀ h ∈ f.hunks.getLast?, Output.EndsSolid h.body) (s : HunkParse) :
    held ((Output.seen true (files.flatMap PrintedFile.lines)).foldl read s)
      = (files.flatMap (fun f => f.hunks.map (fun h => (f, h)))).foldl
        (fun a q => settle (pathRead q.1) a q.2) (held s) := by
  induction files generalizing s with
  | nil => rfl
  | cons f files ih =>
    obtain ⟨hf, hfiles⟩ := forall_mem_cons.mp hcontent
    obtain ⟨hfend, hfilesend⟩ := forall_mem_cons.mp hend
    rw [flatMap_cons, Output.seen_append, foldl_append, ih hfiles hfilesend,
      held_file hf hfend, flatMap_cons, foldl_append, foldl_map]

end HunkParse

/-! ### Paths -/

def hunksOf (files : List PrintedFile) : List (PrintedFile × PrintedHunk) :=
  files.flatMap (fun f => f.hunks.map (fun h => (f, h)))

theorem mem_hunksOf {files : List PrintedFile} {q : PrintedFile × PrintedHunk} :
    q ∈ hunksOf files ↔ q.1 ∈ files ∧ q.2 ∈ q.1.hunks := by
  obtain ⟨f, h⟩ := q
  rw [hunksOf, mem_flatMap]
  constructor
  · rintro ⟨g, hg, hmem⟩
    obtain ⟨h', hh', heq⟩ := mem_map.mp hmem
    obtain ⟨rfl, rfl⟩ := Prod.mk.inj heq
    exact ⟨hg, hh'⟩
  · exact fun ⟨hf, hh⟩ => ⟨f, hf, mem_map_of_mem hh⟩

/-- Hunks settled one after the other, each under the path of its file. -/
def settleAll (qs : List (PrintedFile × PrintedHunk)) (a : List DiffHunk × List (List Char)) :
    List DiffHunk × List (List Char) :=
  qs.foldl (fun a q => HunkParse.settle (HunkParse.pathRead q.1) a q.2) a

theorem length_settleAll (qs : List (PrintedFile × PrintedHunk)) :
    ∀ a, (settleAll qs a).1.length + qs.countP (fun q => HunkParse.pathRead q.1 = [])
      = a.1.length + qs.length := by
  induction qs with
  | nil => exact fun a => rfl
  | cons q qs ih =>
    intro a
    have hrest := ih (HunkParse.settle (HunkParse.pathRead q.1) a q.2)
    rw [settleAll, foldl_cons, ← settleAll, countP_cons, length_cons]
    by_cases hpath : HunkParse.pathRead q.1 = []
    · rw [HunkParse.settle, if_pos hpath] at hrest ⊢
      rw [if_pos (decide_eq_true hpath)]
      dsimp only at hrest
      omega
    · rw [HunkParse.settle, if_neg hpath] at hrest ⊢
      rw [if_neg (by rw [decide_eq_true_eq]; exact hpath)]
      rw [length_append, length_singleton] at hrest
      omega

theorem settleAll_pathed {qs : List (PrintedFile × PrintedHunk)}
    (hqs : ∀ q ∈ qs, HunkParse.pathRead q.1 ≠ []) :
    ∀ found, settleAll qs (found, []) = (found ++ qs.map (fun q =>
      ⟨HunkParse.pathRead q.1, q.2.newStart, contentText q.2⟩), []) := by
  induction qs with
  | nil =>
    intro found
    rw [map_nil, append_nil]
    rfl
  | cons q qs ih =>
    intro found
    obtain ⟨hq, hrest⟩ := forall_mem_cons.mp hqs
    rw [settleAll, foldl_cons, ← settleAll, HunkParse.settle, if_neg hq]
    rw [nil_append, ih hrest, map_cons, append_assoc, singleton_append]

theorem map_encode_contentText {h : PrintedHunk} (hcontent : ∀ l ∈ h.content, ReadAsContent l) :
    (contentText h).map Utf8.encode = h.content := by
  rw [contentText, map_map]
  conv_rhs => rw [← map_id h.content]
  refine map_congr_left (fun l hl => ?_)
  obtain ⟨t, ht, -⟩ := hcontent l hl
  exact Utf8.encode_lossy_iff.mpr ⟨t, ht⟩

/-- **Hunks that are read come back exactly when their paths do.** -/
theorem parsed_iff {files : List PrintedFile}
    (hcontent : ∀ f ∈ files, ∀ h ∈ f.hunks, ∀ l ∈ h.content, ReadAsContent l)
    (hend : ∀ f ∈ files, ∀ h ∈ f.hunks.getLast?, Output.EndsSolid h.body) :
    (parseHunks (stdoutText (printDiff files))).map
        (fun h => (Utf8.encode h.path, h.newStart, h.lines.map Utf8.encode))
      = files.flatMap (fun f => f.hunks.map (fun h => (f.path, h.newStart, h.content))) ↔
    ∀ f ∈ files, f.hunks ≠ [] →
      HunkParse.pathRead f ≠ [] ∧ Utf8.encode (HunkParse.pathRead f) = f.path := by
  have hparse : parseHunks (stdoutText (printDiff files)) = (settleAll (hunksOf files) ([], [])).1 := by
    rw [parseHunks, lines_printDiff]
    exact congrArg Prod.fst (HunkParse.held_files hcontent hend .start)
  have hexpected : files.flatMap (fun f => f.hunks.map (fun h => (f.path, h.newStart, h.content)))
      = (hunksOf files).map (fun q => (q.1.path, q.2.newStart, q.2.content)) := by
    rw [hunksOf, map_flatMap]
    refine flatMap_congr (fun f _ => ?_)
    rw [map_map]
    rfl
  have hread : ∀ q ∈ hunksOf files, (contentText q.2).map Utf8.encode = q.2.content :=
    fun q hq => map_encode_contentText (hcontent q.1 (mem_hunksOf.mp hq).1 q.2 (mem_hunksOf.mp hq).2)
  have hpaths : (∀ f ∈ files, f.hunks ≠ [] →
      HunkParse.pathRead f ≠ [] ∧ Utf8.encode (HunkParse.pathRead f) = f.path) ↔
      ∀ q ∈ hunksOf files,
        HunkParse.pathRead q.1 ≠ [] ∧ Utf8.encode (HunkParse.pathRead q.1) = q.1.path := by
    constructor
    · exact fun h q hq => h q.1 (mem_hunksOf.mp hq).1 (ne_nil_of_mem (mem_hunksOf.mp hq).2)
    · intro h f hf hne
      obtain ⟨g, hg⟩ := exists_mem_of_ne_nil _ hne
      exact h (f, g) (mem_hunksOf.mpr ⟨hf, hg⟩)
  rw [hparse, hexpected, hpaths]
  constructor
  · intro heq
    have hlength := congrArg List.length heq
    have hcount := length_settleAll (hunksOf files) ([], [])
    rw [length_map, length_map] at hlength
    have hnone : (hunksOf files).countP (fun q => HunkParse.pathRead q.1 = []) = 0 := by
      rw [length_nil] at hcount
      omega
    have hpathed : ∀ q ∈ hunksOf files, HunkParse.pathRead q.1 ≠ [] := fun q hq hnil =>
      countP_eq_zero.mp hnone q hq (decide_eq_true hnil)
    rw [settleAll_pathed hpathed, nil_append, map_map] at heq
    exact fun q hq => ⟨hpathed q hq, congrArg Prod.fst (map_inj_left.mp heq q hq)⟩
  · intro hall
    rw [settleAll_pathed (fun q hq => (hall q hq).1), nil_append, map_map]
    refine map_congr_left (fun q hq => ?_)
    rw [Function.comp_apply, (hall q hq).2, hread q hq]

/-! ### The path of a file -/

def ClearByte (b : UInt8) : Prop :=
  0x20 ≤ b.toNat ∧ b.toNat < 0x7f ∧ b.toNat ≠ 0x22 ∧ b.toNat ≠ 0x5c

theorem plainByte_iff (b : UInt8) : PlainByte b ↔ ClearByte b ∧ b ≠ 0x20 := by
  have hspace : b ≠ 0x20 ↔ b.toNat ≠ 0x20 := not_congr UInt8.toNat_inj.symm
  rw [PlainByte, ClearByte, hspace]
  omega

def nameText (name : List UInt8) : List Char := name.map (fun b => Char.ofNat b.toNat)

theorem val_byte (b : UInt8) : (Fin.ofNat 256 b.toNat).val = b.toNat := Nat.mod_eq_of_lt b.toNat_lt

theorem toNat_char (b : UInt8) : (Char.ofNat b.toNat).toNat = b.toNat := by
  rw [← val_byte b]
  exact toNat_byte _

theorem encode_nameText {name : List UInt8} (h : ∀ b ∈ name, ClearByte b) :
    Utf8.encode (nameText name) = name := by
  induction name with
  | nil => rfl
  | cons b name ih =>
    obtain ⟨hb, hname⟩ := forall_mem_cons.mp h
    have hascii : (Char.ofNat b.toNat).toNat < 0x80 := by
      rw [toNat_char]
      exact Nat.lt_of_lt_of_le hb.2.1 (by decide)
    rw [nameText, map_cons, Hex.encode_ascii hascii, toNat_char, ← nameText, ih hname,
      UInt8.ofNat_toNat]

theorem mem_nameText {name : List UInt8} : ' ' ∈ nameText name ↔ 0x20 ∈ name := by
  rw [nameText, mem_map]
  constructor
  · rintro ⟨b, hb, hspace⟩
    have hval := congrArg Char.toNat hspace
    rw [toNat_char] at hval
    obtain rfl : b = 0x20 := UInt8.toNat_inj.mp hval
    exact hb
  · exact fun h => ⟨0x20, h, rfl⟩

/-- **A label is in quotes, or it is the name.** -/
theorem label_new (name : List UInt8) :
    ((∀ b ∈ name, ClearByte b) ∧ label "b/" name = 'b' :: '/' :: nameText name) ∨
    ((∃ b ∈ name, ¬ ClearByte b) ∧ ∃ rest, label "b/" name = '\x22' :: rest) := by
  have hbytes : "b/".toList.map (fun c => Fin.ofNat 256 c.toNat)
      ++ name.map (fun b => Fin.ofNat 256 b.toNat)
        = 98 :: 47 :: name.map (fun b => Fin.ofNat 256 b.toNat) := rfl
  by_cases hclear : ∀ b ∈ name, ClearByte b
  · refine .inl ⟨hclear, ?_⟩
    have hall : ∀ b ∈ (98 : Fin 256) :: 47 :: name.map (fun b => Fin.ofNat 256 b.toNat),
        0x20 ≤ b.val ∧ b.val < 0x7f ∧ b.val ≠ 0x22 ∧ b.val ≠ 0x5c := by
      refine forall_mem_cons.mpr ⟨by decide, forall_mem_cons.mpr ⟨by decide, ?_⟩⟩
      intro b hb
      obtain ⟨c, hc, rfl⟩ := mem_map.mp hb
      rw [val_byte]
      exact hclear c hc
    have hquote : ¬ (98 :: 47 :: name.map (fun b => Fin.ofNat 256 b.toNat)).any
        (fun b => (quoteByte b).length ≠ 1) = true := by
      rw [Bool.not_eq_true, any_eq_false]
      intro b hb hlong
      exact of_decide_eq_true hlong ((length_quoteByte b).mpr (hall b hb))
    have hname : (name.map (fun b => Fin.ofNat 256 b.toNat)).map (fun b => Char.ofNat b.val)
        = nameText name := by
      rw [map_map, nameText]
      exact map_congr_left (fun b _ => by rw [Function.comp_apply, val_byte])
    rw [label, hbytes, printName, if_neg hquote, map_cons, map_cons, hname]
    rfl
  · obtain ⟨b, hb, hnot⟩ : ∃ b ∈ name, ¬ ClearByte b := by
      by_contra hnone
      exact hclear (fun b hb => by_contra fun hnot => hnone ⟨b, hb, hnot⟩)
    refine .inr ⟨⟨b, hb, hnot⟩, ?_⟩
    rcases printName_cases (98 :: 47 :: name.map (fun b => Fin.ofNat 256 b.toNat)) with heq | ⟨-, hall⟩
    · exact ⟨_, by rw [label, hbytes, heq]; rfl⟩
    · refine absurd ?_ hnot
      have hbyte := hall (Fin.ofNat 256 b.toNat)
        (mem_cons_of_mem _ (mem_cons_of_mem _ (mem_map_of_mem hb)))
      rw [val_byte] at hbyte
      exact hbyte

/-- **When the path of a file is read as it is.** -/
theorem pathRead_iff {f : PrintedFile} :
    HunkParse.pathRead f ≠ [] ∧ Utf8.encode (HunkParse.pathRead f) = f.path ↔
      f.status ≠ .deleted ∧ ∀ b ∈ f.newName, PlainByte b := by
  by_cases hdeleted : f.status = .deleted
  · -- there is no file at the new side
    have hpath : HunkParse.pathRead f = [] := by
      rw [HunkParse.pathRead, PrintedFile.newLabel, if_pos hdeleted]
      rfl
    exact iff_of_false (fun h => h.1 hpath) (fun h => h.1 hdeleted)
  have hnew : f.newLabel = label "b/" f.newName := if_neg hdeleted
  have hname : f.path = f.newName := if_neg hdeleted
  rcases label_new f.newName with ⟨hclear, hlabel⟩ | ⟨⟨b, hb, hnot⟩, rest, hlabel⟩
  · have hspace : ' ' ∈ 'b' :: '/' :: nameText f.newName ↔ (0x20 : UInt8) ∈ f.newName := by
      rw [mem_cons, mem_cons, mem_nameText]
      exact ⟨fun h => (h.resolve_left (by decide)).resolve_left (by decide), fun h => .inr (.inr h)⟩
    have hpath : HunkParse.pathRead f
        = nameText f.newName ++ if (0x20 : UInt8) ∈ f.newName then ['\t'] else [] := by
      have hbegin : ∀ tail, "+++ b/".toList
          <+: "+++ ".toList ++ ('b' :: '/' :: nameText f.newName ++ tail) := fun tail => ⟨_, rfl⟩
      rw [HunkParse.pathRead, hnew, hlabel, pairLabel, if_pos (hbegin _), if_congr hspace rfl rfl]
      rfl
    have hencode : Utf8.encode (HunkParse.pathRead f)
        = f.newName ++ if (0x20 : UInt8) ∈ f.newName then [0x09] else [] := by
      rw [hpath, Utf8.encode_append, encode_nameText hclear]
      split_ifs <;> rfl
    have hne : nameText f.newName ≠ [] := fun h => f.named.2 (map_eq_nil_iff.mp h)
    rw [hencode, hname, append_right_eq_self]
    constructor
    · rintro ⟨-, hnone⟩
      refine ⟨hdeleted, fun b hb => (plainByte_iff b).mpr ⟨hclear b hb, ?_⟩⟩
      rintro rfl
      rw [if_pos hb] at hnone
      cases hnone
    · rintro ⟨-, hplain⟩
      refine ⟨fun h => hne ?_, if_neg (fun hb => ((plainByte_iff _).mp (hplain _ hb)).2 rfl)⟩
      rw [hpath] at h
      exact (append_eq_nil_iff.mp h).1
  · have hpath : HunkParse.pathRead f = [] := by
      rw [HunkParse.pathRead, hnew, hlabel]
      refine if_neg (fun h => ?_)
      obtain ⟨tail, htail⟩ := h
      have hquoted : 'b' :: '/' :: tail = '\x22' :: (rest ++ _) := congrArg (List.drop 4) htail
      exact absurd (head_eq_of_cons_eq hquoted) (by decide)
    refine iff_of_false (fun h => h.1 hpath) (fun h => hnot ?_)
    exact ((plainByte_iff b).mp (h.2 b hb)).1

/-- **When hunks are exact.** -/
theorem hunks_exact_iff (files : List PrintedFile) :
    HunksExact files ↔ ∀ f ∈ files, f.hunks ≠ [] → Legible f := by
  have hread : (∀ f ∈ files, f.hunks ≠ [] → Legible f) → ∀ f ∈ files,
      (∀ h ∈ f.hunks, ∀ l ∈ h.content, ReadAsContent l) ∧
        ∀ h ∈ f.hunks.getLast?, Output.EndsSolid h.body := by
    intro hall f hf
    refine ⟨fun h hh => (hall f hf (ne_nil_of_mem hh)).content h hh, fun h hh => ?_⟩
    exact (hall f hf (ne_nil_of_mem (mem_of_getLast? hh))).ending h hh
  constructor
  · rintro ⟨hparsed, hrejected⟩ f hf hne
    have hpatches : ∀ f ∈ files, f.hunks ≠ [] → _ := fun f hf hne =>
      (rejected_iff hne).mp (hrejected f hf)
    have hcontent : ∀ f ∈ files, ∀ h ∈ f.hunks, ∀ l ∈ h.content, ReadAsContent l :=
      fun f hf h hh => ((hpatches f hf (ne_nil_of_mem hh)).2.1 h hh).2
    have hend : ∀ f ∈ files, ∀ h ∈ f.hunks.getLast?, Output.EndsSolid h.body :=
      fun f hf h hh => (hpatches f hf (ne_nil_of_mem (mem_of_getLast? hh))).2.2 h hh
    obtain ⟨hkept, hnamed⟩ := pathRead_iff.mp ((parsed_iff hcontent hend).mp hparsed f hf hne)
    obtain ⟨hextended, hhunks, hlast⟩ := hpatches f hf hne
    exact ⟨hkept, hnamed, hextended, fun h hh => (hhunks h hh).1, fun h hh => (hhunks h hh).2, hlast⟩
  · intro hall
    refine ⟨(parsed_iff (fun f hf => (hread hall f hf).1) (fun f hf => (hread hall f hf).2)).mpr ?_, ?_⟩
    · exact fun f hf hne => pathRead_iff.mpr ⟨(hall f hf hne).kept, (hall f hf hne).named⟩
    · intro f hf h hh
      have hlegible := hall f hf (ne_nil_of_mem hh)
      exact (rejected_iff (ne_nil_of_mem hh)).mpr ⟨hlegible.extended,
        fun h hh => ⟨hlegible.headings h hh, hlegible.content h hh⟩, hlegible.ending⟩ h hh

/-- A line `-- drop` of a query is removed. -/
def queryHunk : PrintedHunk where
  oldStart := 1
  newStart := 0
  removed := [ascii "-- drop"]
  added := []
  removedOpen := false
  addedOpen := false
  heading := []
  changes := by decide +kernel
  lines := by decide +kernel
  opened := by decide
  headed := ⟨List.not_mem_nil, fun b hb => by cases hb⟩
  fits := by decide

/-- A line `new` is added. -/
def addedHunk : PrintedHunk where
  oldStart := 0
  newStart := 1
  removed := []
  added := [ascii "new"]
  removedOpen := false
  addedOpen := false
  heading := []
  changes := by decide +kernel
  lines := by decide +kernel
  opened := by decide
  headed := ⟨List.not_mem_nil, fun b hb => by cases hb⟩
  fits := by decide

def hashes : ExtendedHeader := ⟨.index, "3b18e51..8baef1b 100644".toList, Text.forall_of_all rfl⟩

def oneHunk (name : String) (hname : ascii name ≠ []) (status : FileStatus)
    (extended : List ExtendedHeader) (h : PrintedHunk) : PrintedFile where
  oldName := ascii name
  newName := ascii name
  status := status
  extended := extended
  hunks := [h]
  named := ⟨hname, hname⟩
  ordered := List.pairwise_singleton _ h

def queryFile : PrintedFile := oneHunk "q.sql" (by decide +kernel) .changed [hashes] queryHunk

def goneFile : PrintedFile :=
  oneHunk "gone" (by decide +kernel) .deleted
    [⟨.deletedFileMode, "100644".toList, Text.forall_of_all rfl⟩,
      ⟨.index, "3b18e51..0000000".toList, Text.forall_of_all rfl⟩] queryHunk

def keptFile : PrintedFile := oneHunk "kept" (by decide +kernel) .changed [hashes] addedHunk

/-- A removed comment is missing from the patch, and the lines of a deleted file are parsed as the
next file's. -/
theorem hunks_inexact : ¬ HunksExact [queryFile] ∧ ¬ HunksExact [goneFile, keptFile] := by
  constructor
  · intro h
    obtain ⟨patch, hpatch, hbytes⟩ :=
      h.rejected queryFile mem_cons_self queryHunk mem_cons_self []
    have hhunks : queryFile.hunks = [] ++ queryHunk :: [] := rfl
    rw [rejectPatch_printed hhunks] at hpatch
    rw [← Option.some.inj (Except.ok.inj hpatch)] at hbytes
    revert hbytes
    decide +kernel
  · intro h
    have hparsed := h.parsed
    revert hparsed
    decide +kernel

end Git

end Modbit
