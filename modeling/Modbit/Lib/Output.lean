import Modbit.Lib.Terminated
import Modbit.Lib.Text
import Modbit.Lib.Utf8Loss
import Mathlib.Data.List.Induction
import Mathlib.Data.List.TakeWhile

/-!
# Output that is trimmed and read by lines

The output of a command is a list of lines, each ended by a newline (`unlines`).  Read as a lossy
text, trimmed and taken apart again, every line has lost a carriage return at its end, and the last
one the white space there (`lines_unlines_trim`).  `seen` is that reading, and
`map_encode_seen_iff` says when the bytes of the lines are still what they were.
-/

namespace Modbit.Lib.Output

open List

/-! ### Lines and their ends -/

def unlines (ls : List (List UInt8)) : List UInt8 := ls.flatMap (· ++ [0x0A])

def unlinesText (ls : List (List Char)) : List Char := ls.flatMap (· ++ ['\n'])

theorem unlines_cons (l : List UInt8) (ls : List (List UInt8)) :
    unlines (l :: ls) = l ++ 0x0A :: unlines ls := by
  rw [unlines, flatMap_cons, append_assoc]
  rfl

theorem unlinesText_cons (l : List Char) (ls : List (List Char)) :
    unlinesText (l :: ls) = l ++ '\n' :: unlinesText ls := by
  rw [unlinesText, flatMap_cons, append_assoc]
  rfl

theorem unlinesText_append (ls ms : List (List Char)) :
    unlinesText (ls ++ ms) = unlinesText ls ++ unlinesText ms := flatMap_append

theorem encode_unlinesText (ls : List (List Char)) :
    Utf8.encode (unlinesText ls) = unlines (ls.map Utf8.encode) := by
  induction ls with
  | nil => rfl
  | cons l ls ih =>
    rw [unlinesText_cons, map_cons, unlines_cons, Utf8.encode_append, ← ih]
    rfl

theorem lossy_unlines (ls : List (List UInt8)) :
    Utf8.lossy (unlines ls) = unlinesText (ls.map Utf8.lossy) := by
  induction ls with
  | nil => rfl
  | cons l ls ih => rw [unlines_cons, Utf8.lossy_ended, ih, map_cons, unlinesText_cons]

variable {ls : List (List UInt8)}

/-- **Lines are told apart by their ends.** -/
theorem unlines_inj : ∀ {ms : List (List UInt8)},
    (∀ l ∈ ls, (0x0A : UInt8) ∉ l) → (∀ m ∈ ms, (0x0A : UInt8) ∉ m) →
    unlines ls = unlines ms → ls = ms := by
  induction ls with
  | nil =>
    intro ms _ _ h
    cases ms with
    | nil => rfl
    | cons m ms =>
      rw [unlines_cons] at h
      exact absurd h.symm (append_ne_nil_of_right_ne_nil _ (cons_ne_nil _ _))
  | cons l ls ih =>
    intro ms hls hms h
    cases ms with
    | nil =>
      rw [unlines_cons] at h
      exact absurd h (append_ne_nil_of_right_ne_nil _ (cons_ne_nil _ _))
    | cons m ms =>
      obtain ⟨hl, hls⟩ := forall_mem_cons.mp hls
      obtain ⟨hm, hms⟩ := forall_mem_cons.mp hms
      rw [unlines_cons, unlines_cons] at h
      obtain ⟨hline, hrest⟩ := (append_newline_inj hl hm).mp h
      rw [hline, ih hls hms hrest]

/-! ### Trimming -/

theorem dropEndWhile_append {p : Char → Bool} (a : List Char) {b : List Char}
    (h : ∃ c ∈ b, p c = false) :
    Text.dropEndWhile p (a ++ b) = a ++ Text.dropEndWhile p b := by
  obtain ⟨c, hc, hpc⟩ := h
  have hne : ¬ (b.reverse.dropWhile p).isEmpty = true := by
    rw [List.isEmpty_iff, dropWhile_eq_nil_iff]
    exact fun hall => by
      have := hall c (mem_reverse.mpr hc)
      rw [hpc] at this
      cases this
  rw [Text.dropEndWhile, reverse_append, dropWhile_append, if_neg hne,
    reverse_append, reverse_reverse]
  rfl

theorem dropEndWhile_begins (p : Char → Bool) (l : List Char) : Text.dropEndWhile p l <+: l := by
  rw [Text.dropEndWhile, ← reverse_suffix, reverse_reverse]
  exact dropWhile_suffix p

variable {l : List Char}

theorem dropEndWhile_eq_self_iff {p : Char → Bool} :
    Text.dropEndWhile p l = l ↔ ∀ c ∈ l.getLast?, p c = false := by
  cases l using List.reverseRecOn with
  | nil => exact iff_of_true rfl (fun c hc => by cases hc)
  | append_singleton l d =>
    rw [getLast?_concat]
    constructor
    · intro h c hc
      obtain rfl := Option.some.inj hc
      by_contra hp
      rw [Bool.not_eq_false] at hp
      rw [Text.dropEndWhile, reverse_append, reverse_singleton, singleton_append,
        dropWhile_cons_of_pos hp] at h
      have hle := ((dropWhile_suffix (l := l.reverse) p)).length_le
      have hlength := congrArg List.length h
      rw [length_reverse, length_append, length_singleton] at hlength
      rw [length_reverse] at hle
      omega
    · intro h
      have hd := h d rfl
      rw [Text.dropEndWhile, reverse_append, reverse_singleton, singleton_append,
        dropWhile_cons_of_neg (by rw [hd]; exact Bool.false_ne_true), reverse_cons, reverse_reverse]

theorem stripCr_eq_self_iff : Text.stripCr l = l ↔ l.getLast? ≠ some '\r' := by
  rw [Text.stripCr]
  split_ifs with h
  · refine iff_of_false (fun hsame => ?_) (fun hne => hne h)
    have hlength := congrArg List.length hsame
    have hpos := length_pos_of_mem (mem_of_getLast? h)
    rw [length_dropLast] at hlength
    omega
  · exact iff_of_true rfl h

/-- The first character of a line is no white space. -/
def Solid (l : List Char) : Prop := ∃ c rest, l = c :: rest ∧ Text.isWhitespace c = false

theorem Solid.exists_mem (h : Solid l) : ∃ c ∈ l, Text.isWhitespace c = false := by
  obtain ⟨c, rest, rfl, hc⟩ := h
  exact ⟨c, mem_cons_self, hc⟩

theorem stripCr_begins (l : List Char) : Text.stripCr l <+: l := by
  rw [Text.stripCr]
  split_ifs
  · exact dropLast_prefix l
  · exact prefix_refl l

theorem Solid.stripCr_ne_nil (h : Solid l) : Text.stripCr l ≠ [] := by
  obtain ⟨c, rest, rfl, hc⟩ := h
  rw [Text.stripCr]
  split_ifs with hlast
  · cases rest with
    | nil =>
      obtain rfl := Option.some.inj hlast
      exact absurd hc (by decide)
    | cons d rest => exact cons_ne_nil _ _
  · exact cons_ne_nil c rest

theorem Solid.dropEndWhile_ne_nil (h : Solid l) : Text.dropEndWhile Text.isWhitespace l ≠ [] := by
  obtain ⟨c, hc, hws⟩ := h.exists_mem
  intro hnil
  rw [Text.dropEndWhile, reverse_eq_nil_iff, dropWhile_eq_nil_iff] at hnil
  rw [hnil c (mem_reverse.mpr hc)] at hws
  cases hws

theorem lines_unlinesText {ls : List (List Char)} {tail : List Char} (hls : ∀ l ∈ ls, '\n' ∉ l)
    (htail : '\n' ∉ tail) (hne : tail ≠ []) :
    Text.lines (unlinesText ls ++ tail) = ls.map Text.stripCr ++ [tail] := by
  induction ls with
  | nil =>
    rw [unlinesText, flatMap_nil, nil_append, Text.lines_last htail, if_neg hne]
    rfl
  | cons l ls ih =>
    obtain ⟨hl, hls⟩ := forall_mem_cons.mp hls
    rw [unlinesText_cons, append_assoc, cons_append, Text.lines_line hl, ih hls]
    rfl

/-- **Lines trimmed as one text.** -/
theorem lines_trim_unlinesText {ls : List (List Char)} {last : List Char}
    (hls : ∀ l ∈ ls ++ [last], '\n' ∉ l ∧ Solid l) :
    Text.lines (Text.trimChars (unlinesText (ls ++ [last])))
      = ls.map Text.stripCr ++ [Text.dropEndWhile Text.isWhitespace last] := by
  have hlast := hls last (mem_append_right _ mem_cons_self)
  have htext : unlinesText (ls ++ [last]) = unlinesText ls ++ (last ++ ['\n']) := by
    rw [unlinesText, flatMap_append, flatMap_singleton]
    rfl
  have hfirst : (unlinesText (ls ++ [last])).dropWhile Text.isWhitespace
      = unlinesText (ls ++ [last]) := by
    obtain ⟨l, rest, hcons⟩ := exists_cons_of_ne_nil
      (append_ne_nil_of_right_ne_nil ls (cons_ne_nil last []))
    obtain ⟨c, l', rfl, hc⟩ := (hls l (hcons ▸ mem_cons_self)).2
    rw [hcons, unlinesText_cons, cons_append,
      dropWhile_cons_of_neg (by rw [hc]; exact Bool.false_ne_true)]
  have hend : Text.dropEndWhile Text.isWhitespace (last ++ ['\n'])
      = Text.dropEndWhile Text.isWhitespace last := by
    rw [Text.dropEndWhile, reverse_append, reverse_singleton, singleton_append,
      dropWhile_cons_of_pos (by decide)]
    rfl
  obtain ⟨c, hc, hws⟩ := hlast.2.exists_mem
  rw [Text.trimChars, hfirst, htext,
    dropEndWhile_append _ ⟨c, mem_append_left _ hc, hws⟩, hend, lines_unlinesText]
  · exact fun l hl => (hls l (mem_append_left _ hl)).1
  · exact fun hmem => hlast.1 ((dropEndWhile_begins _ last).subset hmem)
  · exact hlast.2.dropEndWhile_ne_nil

/-! ### What is seen -/

/-- Lines as they are read; `last` says whether the output ends with them. -/
def seen (last : Bool) : List (List UInt8) → List (List Char)
  | [] => []
  | l :: rest =>
    (if last = true ∧ rest = [] then Text.dropEndWhile Text.isWhitespace (Utf8.lossy l)
      else Text.stripCr (Utf8.lossy l)) :: seen last rest

theorem seen_append (last : Bool) (ls ms : List (List UInt8)) :
    seen last (ls ++ ms) = seen (last && ms.isEmpty) ls ++ seen last ms := by
  induction ls with
  | nil => rfl
  | cons l ls ih =>
    rw [cons_append, seen, seen, ih, cons_append]
    have hend : (last = true ∧ ls ++ ms = []) ↔ ((last && ms.isEmpty) = true ∧ ls = []) := by
      rw [append_eq_nil_iff, Bool.and_eq_true, List.isEmpty_iff]
      tauto
    rw [if_congr hend rfl rfl]

theorem seen_false (ls : List (List UInt8)) :
    seen false ls = ls.map (fun l => Text.stripCr (Utf8.lossy l)) := by
  induction ls with
  | nil => rfl
  | cons l ls ih =>
    rw [seen, if_neg (fun h => Bool.false_ne_true h.1), ih]
    rfl

/-- **What a trimmed output is read as.** -/
theorem lines_unlines_trim (hls : ∀ l ∈ ls, (0x0A : UInt8) ∉ l ∧ Solid (Utf8.lossy l)) :
    Text.lines (Text.trimChars (Utf8.lossy (unlines ls))) = seen true ls := by
  cases ls using List.reverseRecOn with
  | nil => rfl
  | append_singleton ls last =>
    rw [lossy_unlines, map_append, map_singleton, lines_trim_unlinesText, seen_append, map_map]
    · rw [isEmpty_cons, Bool.and_false, seen_false, seen, if_pos ⟨rfl, rfl⟩]
      rfl
    · intro l hl
      rcases mem_append.mp hl with hl | hl
      · obtain ⟨raw, hraw, rfl⟩ := mem_map.mp hl
        obtain ⟨hnot, hsolid⟩ := hls raw (mem_append_left _ hraw)
        exact ⟨Utf8.newline_not_mem_lossy hnot, hsolid⟩
      · rw [mem_singleton.mp hl]
        obtain ⟨hnot, hsolid⟩ := hls last (mem_append_right _ mem_cons_self)
        exact ⟨Utf8.newline_not_mem_lossy hnot, hsolid⟩

/-- **What is seen begins the line it is of.** -/
theorem begins_of_mem_seen {last : Bool} {s : List Char}
    (hs : s ∈ seen last ls) : ∃ l ∈ ls, s <+: Utf8.lossy l ∧ (Solid (Utf8.lossy l) → s ≠ []) := by
  induction ls with
  | nil => cases hs
  | cons l ls ih =>
    rw [seen, mem_cons] at hs
    rcases hs with rfl | hs
    · refine ⟨l, mem_cons_self, ?_⟩
      split_ifs
      · exact ⟨dropEndWhile_begins _ _, fun hsolid => hsolid.dropEndWhile_ne_nil⟩
      · exact ⟨stripCr_begins _, fun hsolid => hsolid.stripCr_ne_nil⟩
    · obtain ⟨m, hm, hbegin⟩ := ih hs
      exact ⟨m, mem_cons_of_mem _ hm, hbegin⟩

theorem encode_stripCr_iff {l : List UInt8} :
    Utf8.encode (Text.stripCr (Utf8.lossy l)) = l ↔
      ∃ t, Utf8.encode t = l ∧ t.getLast? ≠ some '\r' := by
  constructor
  · intro h
    have hsame := congrArg Utf8.lossy h
    rw [Utf8.lossy_encode] at hsame
    exact ⟨_, h, by rw [hsame]; exact stripCr_eq_self_iff.mp hsame⟩
  · rintro ⟨t, rfl, hend⟩
    rw [Utf8.lossy_encode, stripCr_eq_self_iff.mpr hend]

theorem encode_trimEnd_iff {l : List UInt8} :
    Utf8.encode (Text.dropEndWhile Text.isWhitespace (Utf8.lossy l)) = l ↔
      ∃ t, Utf8.encode t = l ∧ ∀ c ∈ t.getLast?, Text.isWhitespace c = false := by
  constructor
  · intro h
    have hsame := congrArg Utf8.lossy h
    rw [Utf8.lossy_encode] at hsame
    exact ⟨_, h, by rw [hsame]; exact dropEndWhile_eq_self_iff.mp hsame⟩
  · rintro ⟨t, rfl, hend⟩
    rw [Utf8.lossy_encode, dropEndWhile_eq_self_iff.mpr hend]

/-- The output ends with no white space but its last newline. -/
def EndsSolid (ls : List (List UInt8)) : Prop :=
  ∀ l ∈ ls.getLast?, ∀ c ∈ (Utf8.lossy l).getLast?, Text.isWhitespace c = false

theorem encode_seen_iff (keep : List Char → Bool) (cut : Prop) [Decidable cut] (l : List UInt8) :
    (keep (if cut then Text.dropEndWhile Text.isWhitespace (Utf8.lossy l)
          else Text.stripCr (Utf8.lossy l)) = true ∧
        Utf8.encode (if cut then Text.dropEndWhile Text.isWhitespace (Utf8.lossy l)
          else Text.stripCr (Utf8.lossy l)) = l) ↔
      (∃ t, Utf8.encode t = l ∧ t.getLast? ≠ some '\r' ∧ keep t = true) ∧
        (cut → ∀ c ∈ (Utf8.lossy l).getLast?, Text.isWhitespace c = false) := by
  split_ifs with hcut
  · rw [encode_trimEnd_iff]
    constructor
    · rintro ⟨hkeep, t, rfl, hend⟩
      rw [Utf8.lossy_encode] at hkeep ⊢
      rw [dropEndWhile_eq_self_iff.mpr hend] at hkeep
      refine ⟨⟨t, rfl, fun hcr => ?_, hkeep⟩, fun _ => hend⟩
      exact absurd (hend '\r' hcr) (by decide)
    · rintro ⟨⟨t, rfl, -, hkeep⟩, hend⟩
      have hend := hend hcut
      rw [Utf8.lossy_encode] at hend ⊢
      exact ⟨by rw [dropEndWhile_eq_self_iff.mpr hend]; exact hkeep, t, rfl, hend⟩
  · rw [encode_stripCr_iff]
    constructor
    · rintro ⟨hkeep, t, rfl, hend⟩
      rw [Utf8.lossy_encode, stripCr_eq_self_iff.mpr hend] at hkeep
      exact ⟨⟨t, rfl, hend, hkeep⟩, fun h => absurd h hcut⟩
    · rintro ⟨⟨t, rfl, hend, hkeep⟩, -⟩
      rw [Utf8.lossy_encode, stripCr_eq_self_iff.mpr hend]
      exact ⟨hkeep, t, rfl, hend⟩

theorem endsSolid_cons (l : List UInt8) (ls : List (List UInt8)) (last : Bool) :
    (last = true → EndsSolid (l :: ls)) ↔
      (last = true ∧ ls = [] → ∀ c ∈ (Utf8.lossy l).getLast?, Text.isWhitespace c = false) ∧
        (last = true → EndsSolid ls) := by
  cases ls with
  | nil =>
    constructor
    · exact fun h => ⟨fun hlast => h hlast.1 l rfl, fun _ m hm => by cases hm⟩
    · intro h hlast m hm
      obtain rfl := Option.some.inj hm
      exact h.1 ⟨hlast, rfl⟩
  | cons m ms =>
    constructor
    · exact fun h => ⟨fun hlast => absurd hlast.2 (cons_ne_nil m ms), fun hlast => h hlast⟩
    · exact fun h hlast => h.2 hlast

theorem length_seen (last : Bool) (ls : List (List UInt8)) : (seen last ls).length = ls.length := by
  induction ls with
  | nil => rfl
  | cons l ls ih => rw [seen, length_cons, length_cons, ih]

/-- **Lines that are seen as they were**, with a rule for which of them are kept. -/
theorem map_encode_seen_iff (keep : List Char → Bool) (last : Bool) (ls : List (List UInt8)) :
    (((seen last ls).filter keep).map Utf8.encode = ls) ↔
      (∀ l ∈ ls, ∃ t, Utf8.encode t = l ∧ t.getLast? ≠ some '\r' ∧ keep t = true) ∧
        (last = true → EndsSolid ls) := by
  induction ls with
  | nil =>
    exact iff_of_true rfl ⟨fun l hl => absurd hl not_mem_nil, fun _ l hl => by cases hl⟩
  | cons l ls ih =>
    have hfirst : ∀ s : List Char, (((s :: seen last ls).filter keep).map Utf8.encode = l :: ls) ↔
        (keep s = true ∧ Utf8.encode s = l) ∧ ((seen last ls).filter keep).map Utf8.encode = ls := by
      intro s
      by_cases hkeep : keep s = true
      · rw [filter_cons_of_pos hkeep, map_cons, List.cons.injEq]
        exact ⟨fun h => ⟨⟨hkeep, h.1⟩, h.2⟩, fun h => ⟨h.1.2, h.2⟩⟩
      · rw [filter_cons_of_neg hkeep]
        refine iff_of_false (fun h => ?_) (fun h => hkeep h.1.1)
        have hle := length_filter_le keep (seen last ls)
        have heq := congrArg List.length h
        rw [length_seen] at hle
        rw [length_map, length_cons] at heq
        omega
    rw [seen, hfirst, endsSolid_cons, forall_mem_cons]
    refine (and_congr (encode_seen_iff keep _ l) ih).trans ?_
    exact and_and_and_comm

end Modbit.Lib.Output
