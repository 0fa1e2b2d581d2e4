import Modbit.Protocol.RecordText

/-!
# What a journal keeps over crashes

A `Journal` is whole lines and then nothing, or the beginning of a line that was cut off.
It opens with the records of the whole lines, and with the last one if only its newline is
missing (`Journal.durable`).  An append to the start of a line makes a longer journal
(`journal_step`), and `durable_run` follows by induction over the events.

`append` does not look at what the file ends with: after a cut the next record is written
on the same line and lost with it (`append_after_torn`).
-/

namespace Modbit

open Lib List

namespace ProtocolState

/-! ### Reading back -/

variable {json : RecordJson} {w : World} {rs : List ProtocolRecord} {tail : List Char}
  {r : ProtocolRecord}

def text (json : RecordJson) (rs : List ProtocolRecord) : List Char :=
  (rs.map json.toText).flatMap (· ++ ['\n'])

theorem text_append (r : ProtocolRecord) :
    text json (rs ++ [r]) = text json rs ++ (json.toText r ++ ['\n']) := by
  rw [text, map_append, flatMap_append]
  simp [text]

theorem replay_map (last : List (List Char)) (h : last.length ≤ 1) :
    replay json (rs.map json.toText ++ last) = .ok (rs ++ last.filterMap json.fromText) := by
  induction rs with
  | nil =>
    match last, h with
    | [], _ => rfl
    | [l], _ =>
      rw [map_nil, nil_append, replay]
      cases hl : json.fromText l with
      | none => simp [hl]
      | some r => simp [hl]
  | cons r rs ih =>
    rw [map_cons, cons_append]
    cases hrest : rs.map json.toText ++ last with
    | nil =>
      obtain ⟨hrs, hlast⟩ := append_eq_nil_iff.mp hrest
      rw [replay, json.fromText_toText, hlast, map_eq_nil_iff.mp hrs]
      rfl
    | cons next rest =>
      rw [hrest] at ih
      rw [replay, json.fromText_toText, ih]
      rfl

theorem openStore_text (htail : '\n' ∉ tail) :
    openStore json (some (Utf8.encode (text json rs ++ tail)))
      = .ok ⟨rs ++ (if tail = [] then [] else [tail]).filterMap json.fromText⟩ := by
  have hlines : Text.lines (text json rs ++ tail)
      = rs.map json.toText ++ if tail = [] then [] else [tail] := by
    refine Text.lines_unlines (fun l hl => ?_) htail
    obtain ⟨r, -, rfl⟩ := mem_map.mp hl
    exact json.plain r
  have hfull : (Text.lines (text json rs ++ tail)).filter (· ≠ [])
      = Text.lines (text json rs ++ tail) := by
    rw [hlines, filter_eq_self]
    intro l hl
    rcases mem_append.mp hl with hmem | hmem
    · obtain ⟨r, -, rfl⟩ := mem_map.mp hmem
      exact decide_eq_true (json.toText_ne_nil r)
    · split_ifs at hmem with hnil
      · cases hmem
      · rw [mem_singleton.mp hmem]
        exact decide_eq_true hnil
  rw [openStore, Utf8.decode_encode]
  dsimp only
  rw [hfull, hlines, replay_map]
  · rfl
  · split_ifs
    · exact Nat.zero_le 1
    · exact Nat.le_refl 1

/-! ### What the file holds -/

/-- Whole lines, and then nothing or the beginning of a line that was cut off. -/
structure Journal (json : RecordJson) (file : Option (List UInt8))
    (attempts : List (ProtocolRecord × Bool)) (rs : List ProtocolRecord) (tail : List Char) : Prop where
  bytes : file.getD [] = Utf8.encode (text json rs ++ tail)
  whole : Recovers attempts rs
  torn : tail = [] ∨ ∃ r, tail <+: json.toText r ∧ Recovers attempts (rs ++ [r])

theorem openStore_getD (json : RecordJson) (file : Option (List UInt8)) :
    openStore json file = openStore json (some (file.getD [])) := by
  cases file with
  | some bytes => rfl
  | none =>
    have hempty : openStore json (some (Utf8.encode (text json [] ++ []))) = _ :=
      openStore_text not_mem_nil
    exact hempty.symm

theorem Journal.durable (h : Journal json w.file w.attempts rs tail) : w.Durable json := by
  have hplain : '\n' ∉ tail := by
    rcases h.torn with rfl | ⟨r, hpre, -⟩
    · exact not_mem_nil
    · exact fun hmem => (json.plain r).1 (hpre.subset hmem)
  have hopen := openStore_getD json w.file
  rw [h.bytes, openStore_text hplain] at hopen
  refine ⟨_, hopen, ?_⟩
  by_cases hnil : tail = []
  · rw [if_pos hnil, filterMap_nil, append_nil]
    exact h.whole
  · obtain ⟨r, hpre, hrec⟩ := h.torn.resolve_left hnil
    rw [if_neg hnil]
    by_cases hfull : tail = json.toText r
    · rw [hfull, filterMap_cons, json.fromText_toText]
      exact hrec
    · rw [filterMap_cons, json.fromText_cut r tail hpre hfull, filterMap_nil, append_nil]
      exact h.whole

theorem Journal.tail_eq_nil (h : Journal json w.file w.attempts rs tail)
    (hstart : AtLineStart w.file) : tail = [] := by
  by_contra hne
  obtain ⟨r, hpre, -⟩ := h.torn.resolve_left hne
  rw [AtLineStart, h.bytes, Utf8.decode_encode] at hstart
  rcases of_decide_eq_true hstart with hnil | hlast
  · exact hne (append_eq_nil_iff.mp hnil).2
  · rw [getLast?_append_of_ne_nil _ hne] at hlast
    exact (json.plain r).1 (hpre.subset (mem_of_getLast? hlast))

theorem exists_take {k : Nat} (hk : k < (line json r).length)
    (hdec : (Utf8.decode ((line json r).take k)).isSome) :
    ∃ l, l <+: json.toText r ∧ (line json r).take k = Utf8.encode l := by
  obtain ⟨l, hl⟩ := Option.isSome_iff_exists.mp hdec
  have henc := Utf8.encode_of_decode hl
  refine ⟨l, ?_, henc.symm⟩
  have hsplit : Utf8.encode l ++ (line json r).drop k = Utf8.encode (json.toText r ++ ['\n']) := by
    rw [henc]
    exact take_append_drop k _
  have hdecode := Utf8.decode_append l ((line json r).drop k)
  rw [hsplit, Utf8.decode_encode] at hdecode
  obtain ⟨rest, hrest, heq⟩ := Option.map_eq_some_iff.mp hdecode.symm
  have hpre : l <+: json.toText r ++ ['\n'] := ⟨rest, heq⟩
  rcases prefix_concat_iff.mp hpre with hall | hshort
  · -- the whole line would be longer
    rw [hall] at henc
    have hlen := congrArg List.length henc
    rw [length_take] at hlen
    have : (Utf8.encode (json.toText r ++ ['\n'])).length = (line json r).length := rfl
    omega
  · exact hshort

theorem journal_step {e : Event} (h : ∃ rs tail, Journal json w.file w.attempts rs tail)
    (hclean : w.Clean json e) :
    ∃ rs tail, Journal json (w.step json e).1.file (w.step json e).1.attempts rs tail := by
  obtain ⟨rs, tail, hj⟩ := h
  cases e with
  | reopen =>
    rw [World.step]
    split
    · exact ⟨rs, tail, hj⟩
    · exact ⟨rs, tail, hj⟩
  | crash => exact ⟨rs, tail, hj⟩
  | append r =>
    rw [World.step]
    cases hstore : w.store with
    | none => exact ⟨rs, tail, hj⟩
    | some store =>
      obtain rfl := hj.tail_eq_nil (hclean (by rw [hstore]; rfl))
      refine ⟨rs ++ [r], [], ?_, hj.whole.kept r true, Or.inl rfl⟩
      show w.file.getD [] ++ line json r = _
      rw [hj.bytes, line, ← Utf8.encode_append, append_nil, append_nil, text_append]
  | crashAppending r written =>
    rw [World.step]
    split_ifs with hopen
    · by_cases hzero : written = 0
      · refine ⟨rs, tail, ?_, hj.whole.lost r, hj.torn.imp id ?_⟩
        · show w.file.getD [] ++ (line json r).take written = _
          rw [hzero, take_zero, append_nil, hj.bytes]
        · rintro ⟨r', hpre, hrec⟩
          exact ⟨r', hpre, hrec.lost r⟩
      · obtain ⟨hstart, hdec⟩ := hclean hopen.1 hopen.2 hzero
        obtain rfl := hj.tail_eq_nil hstart
        obtain ⟨l, hpre, hbytes⟩ := exists_take hopen.2 hdec
        refine ⟨rs, l, ?_, hj.whole.lost r, Or.inr ⟨r, hpre, hj.whole.kept r false⟩⟩
        show w.file.getD [] ++ (line json r).take written = _
        rw [hj.bytes, hbytes, append_nil, ← Utf8.encode_append]
    · exact ⟨rs, tail, hj⟩

/-- **A journal that is only appended to at the start of a line keeps what was appended.** -/
theorem durable_run (json : RecordJson) (events : List Event)
    (h : Admits (World.step json) (World.Clean json) .fresh events) :
    (run (World.step json) .fresh events).Durable json := by
  have hj := (path_of_admits events h).invariant
    (I := fun w => ∃ rs tail, Journal json w.file w.attempts rs tail)
    ⟨[], [], rfl, .nil, Or.inl rfl⟩ (fun w e hw he => journal_step hw he)
  obtain ⟨rs, tail, hj⟩ := hj
  exact hj.durable

def first : ProtocolRecord := .question "q-1" "a" false

def second : ProtocolRecord := .question "q-2" "b" false

theorem line_second : (line serdeRecord second).take 1 = Utf8.encode ['\x7b'] ∧
    1 < (line serdeRecord second).length := by
  decide +kernel

theorem durable_run_torn :
    (run (World.step serdeRecord) .fresh [.reopen, .append first, .crashAppending second 1]).Durable
      serdeRecord := by
  refine durable_run serdeRecord _ ⟨trivial, fun _ => ?_, fun _ _ _ => ⟨?_, ?_⟩, trivial⟩
  · show (Utf8.decode (Utf8.encode [])).any _ = true
    rw [Utf8.decode_encode]
    rfl
  · show (Utf8.decode ([] ++ Utf8.encode (serdeRecord.toText first ++ ['\n']))).any _ = true
    have hlast : (serdeRecord.toText first ++ ['\n']).getLast? = some '\n' := getLast?_concat
    rw [nil_append, Utf8.decode_encode]
    simp [hlast]
  · rw [line_second.1, Utf8.decode_encode]
    rfl

/-- The second record goes to the line that one byte of the first was left on, and is lost with
it. -/
theorem append_after_torn :
    ¬ (run (World.step serdeRecord) .fresh
      [.reopen, .crashAppending second 1, .reopen, .append first]).Durable serdeRecord := by
  have htorn : World.step serdeRecord (World.step serdeRecord .fresh .reopen).1
      (.crashAppending second 1) = (⟨some (Utf8.encode ['\x7b']), none, [(second, false)]⟩, .ok ()) := by
    show World.step serdeRecord ⟨none, some ⟨[]⟩, []⟩ (.crashAppending second 1) = _
    rw [World.step, if_pos ⟨rfl, line_second.2⟩, line_second.1]
    rfl
  have hreopen : World.step serdeRecord ⟨some (Utf8.encode ['\x7b']), none, [(second, false)]⟩ .reopen
      = (⟨some (Utf8.encode ['\x7b']), some ⟨[]⟩, [(second, false)]⟩, .ok ()) := by
    have hbrace : openStore serdeRecord (some (Utf8.encode ['\x7b'])) = .ok ⟨[]⟩ := by
      rw [openStore, Utf8.decode_encode]
      decide +kernel
    rw [World.step]
    rw [hbrace]
  rintro ⟨store, hopen, hrec⟩
  rw [run_cons, run_cons, htorn, run_cons, hreopen, run_cons, run_nil] at hopen hrec
  have hfile : openStore serdeRecord (some (Utf8.encode ['\x7b'] ++ line serdeRecord first))
      = .ok ⟨[]⟩ := by
    rw [line, ← Utf8.encode_append, openStore, Utf8.decode_encode]
    decide +kernel
  obtain rfl := Except.ok.inj (hfile.symm.trans hopen)
  have hmem : ∀ {as rs}, Recovers as rs → ∀ r, (r, true) ∈ as → r ∈ rs := by
    intro as rs h
    induction h with
    | nil => exact fun r hr => absurd hr not_mem_nil
    | kept r' ok h ih =>
      intro r hr
      rcases mem_append.mp hr with hr | hr
      · exact mem_append_left _ (ih r hr)
      · rw [(Prod.mk.inj (mem_singleton.mp hr)).1]
        exact mem_append_right _ mem_cons_self
    | lost r' h ih =>
      intro r hr
      rcases mem_append.mp hr with hr | hr
      · exact ih r hr
      · cases (Prod.mk.inj (mem_singleton.mp hr)).2
  exact absurd (hmem hrec first (mem_append_right _ mem_cons_self)) not_mem_nil

end ProtocolState

end Modbit
