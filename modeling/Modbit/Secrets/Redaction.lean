import Modbit.Lib.Cuts
import Modbit.Lib.Utf8

/-!
# Redacting secrets

`redact` replaces the known values one after the other, each by a marker with its number.  What is replaced
is gone between the markers, and may be back across one: a value that has characters in common with a marker
can be spelled by a marker and what stands beside it, and a value that is no text is not looked for.

`redacted_iff` says step by step when this does not happen.
-/

namespace Modbit.Secrets

open Lib List

/-- `[REDACTED:secret-{i}]`. -/
def marker (i : Nat) : List Char := "[REDACTED:secret-".toList ++ Nat.toDigits 10 i ++ [']']

/-- `str::replace`. -/
def replace (text needle new : List Char) : List Char := new.intercalate (cuts needle 0 text)

def redactValue (out : List Char) (secret : List UInt8 × Nat) : List Char :=
  if secret.1 = [] then out
  else
    match Utf8.decode secret.1 with
    | none => out
    | some needle => if needle <:+: out then replace out needle (marker secret.2) else out

def redact (text : List Char) (knownValues : List (List UInt8)) : List Char :=
  knownValues.zipIdx.foldl redactValue text

/-- The bytes of the text contain none of the values. -/
def Free (text : List Char) (values : List (List UInt8)) : Prop :=
  ∀ v ∈ values, v ≠ [] → ¬ v <:+: Utf8.encode text

/-- The text before the value of number `i` is replaced: a value that is no text is not in it, and the
marker, put between what is left of it, spells none of the values. -/
def Spared (out : List Char) (i : Nat) (v : List UInt8) (values : List (List UInt8)) : Prop :=
  match Utf8.decode v with
  | none => ¬ v <:+: Utf8.encode out
  | some needle => v ≠ [] → needle <:+: out → ∀ u ∈ values, u ≠ [] →
      ¬ Crosses u (Utf8.encode (marker i)) ((cuts needle 0 out).map Utf8.encode)

variable {out text needle : List Char} {v : List UInt8} {values : List (List UInt8)}

theorem encode_intercalate (m : List Char) : ∀ ps : List (List Char),
    Utf8.encode (m.intercalate ps) = (Utf8.encode m).intercalate (ps.map Utf8.encode)
  | [] => rfl
  | [p] => by
    rw [intercalate_singleton, map_singleton, intercalate_singleton]
  | p :: q :: ps => by
    rw [intercalate_cons_cons, Utf8.encode_append, Utf8.encode_append, encode_intercalate m (q :: ps)]
    exact intercalate_cons_cons.symm

theorem encode_within (h : needle <:+: text) : Utf8.encode needle <:+: Utf8.encode text := by
  obtain ⟨s, m, rfl⟩ := h
  refine ⟨Utf8.encode s, Utf8.encode m, ?_⟩
  rw [Utf8.encode_append, Utf8.encode_append]

theorem encode_within_iff (hneedle : needle ≠ []) :
    Utf8.encode needle <:+: Utf8.encode text ↔ needle <:+: text := by
  refine ⟨fun h => ?_, encode_within⟩
  obtain ⟨x, y, h⟩ := h
  obtain ⟨s, m, -, -, rfl⟩ := Utf8.exists_split_of_encode hneedle h.symm
  exact ⟨s, m, rfl⟩

theorem free_concat_iff (hfree : Free out values) :
    Free out (values ++ [v]) ↔ (v ≠ [] → ¬ v <:+: Utf8.encode out) := by
  constructor
  · exact fun h => h v (mem_append_right _ mem_cons_self)
  · intro h u hu
    rcases mem_append.mp hu with hu | hu
    · exact hfree u hu
    · rw [mem_singleton.mp hu]
      exact h

/-- **A value that is replaced**: it and those before it are gone exactly if none is across a marker. -/
theorem free_replace_iff (hneedle : needle ≠ []) (hfree : Free out values) (new : List Char) :
    Free (replace out needle new) (values ++ [Utf8.encode needle]) ↔
      ∀ u ∈ values ++ [Utf8.encode needle], u ≠ [] →
        ¬ Crosses u (Utf8.encode new) ((cuts needle 0 out).map Utf8.encode) := by
  refine forall₂_congr fun u hu => imp_congr_right fun hne => not_congr ?_
  rw [replace, encode_intercalate, infix_intercalate_iff hne]
  refine or_iff_right ?_
  -- a piece is of the text as it was, and has no occurrence of the value
  rintro ⟨p, hp, hup⟩
  obtain ⟨q, hq, rfl⟩ := mem_map.mp hp
  rcases mem_append.mp hu with hu | hu
  · exact hfree u hu hne (hup.trans (encode_within (infix_of_mem_cuts hneedle hq)))
  · rw [mem_singleton.mp hu, encode_within_iff hneedle] at hup
    exact not_infix_of_mem_cuts hneedle hq hup

/-- **One value**: with those before it gone, all are gone after it exactly if they are spared. -/
theorem free_redactValue_iff (hfree : Free out values) (v : List UInt8) (i : Nat) :
    Free (redactValue out (v, i)) (values ++ [v]) ↔ Spared out i v (values ++ [v]) := by
  rw [redactValue, Spared]
  by_cases hv : v = []
  · rw [if_pos hv, free_concat_iff hfree, hv, show Utf8.decode [] = some [] from Utf8.decode_encode []]
    exact iff_of_true (fun h => absurd rfl h) (fun h => absurd rfl h)
  · rw [if_neg hv]
    cases hdecode : Utf8.decode v with
    | none =>
      rw [free_concat_iff hfree]
      exact ⟨fun h => h hv, fun h _ => h⟩
    | some needle =>
      obtain rfl := Utf8.encode_of_decode hdecode
      have hneedle : needle ≠ [] := fun hnil => hv (hnil ▸ rfl)
      dsimp only
      split_ifs with hin
      · rw [free_replace_iff hneedle hfree]
        exact ⟨fun h _ _ => h, fun h => h hv hin⟩
      · rw [free_concat_iff hfree, encode_within_iff hneedle]
        exact iff_of_true (fun _ => hin) (fun _ h => absurd h hin)

variable {n : Nat}

theorem redact_take_succ (text : List Char) (h : values[n]? = some v) :
    redact text (values.take (n + 1)) = redactValue (redact text (values.take n)) (v, n) := by
  have hlen : (values.take n).length = n := by
    rw [length_take]
    exact Nat.min_eq_left (Nat.le_of_lt (List.getElem?_eq_some_iff.mp h).1)
  rw [redact, redact, take_add_one, h, Option.toList_some, zipIdx_append, foldl_append, hlen,
    Nat.zero_add]
  rfl

theorem foldl_of_absent (text : List Char) : ∀ l : List (List UInt8 × Nat),
    (∀ e ∈ l, e.1 ≠ [] → ¬ e.1 <:+: Utf8.encode text) → l.foldl redactValue text = text
  | [], _ => rfl
  | e :: l, h => by
    have hsame : redactValue text e = text := by
      unfold redactValue
      split_ifs with hnil
      · rfl
      · cases hdecode : Utf8.decode e.1 with
        | none => rfl
        | some needle =>
          refine if_neg fun hin => h e mem_cons_self hnil ?_
          rw [← Utf8.encode_of_decode hdecode]
          exact encode_within hin
    rw [foldl_cons, hsame]
    exact foldl_of_absent text l (fun e' he' => h e' (mem_cons_of_mem e he'))

theorem free_step_iff (text : List Char) (hv : values[n]? = some v)
    (hfree : Free (redact text (values.take n)) (values.take n)) :
    Free (redact text (values.take (n + 1))) (values.take (n + 1)) ↔
      Spared (redact text (values.take n)) n v (values.take (n + 1)) := by
  rw [redact_take_succ text hv, take_add_one, hv]
  exact free_redactValue_iff hfree v n

theorem free_of_spared (h : ∀ n v, values[n]? = some v →
    Spared (redact text (values.take n)) n v (values.take (n + 1))) (hn : n ≤ values.length) :
    Free (redact text (values.take n)) (values.take n) := by
  induction n with
  | zero => exact fun _ hv => by cases hv
  | succ n ih =>
    have hv := getElem?_eq_getElem hn
    exact (free_step_iff text hv (ih (Nat.le_of_lt hn))).mpr (h n _ hv)

/-- **Redaction, value by value.**  The text has none of the values that were handled, after each of them,
exactly if each is spared in the text before it; and then it has none at all in the end.  A text that has
none of them stays as it is. -/
theorem redacted_iff (text : List Char) (values : List (List UInt8)) :
    ((∀ n ≤ values.length, Free (redact text (values.take n)) (values.take n)) ↔
      ∀ n v, values[n]? = some v → Spared (redact text (values.take n)) n v (values.take (n + 1))) ∧
    ((∀ n v, values[n]? = some v → Spared (redact text (values.take n)) n v (values.take (n + 1))) →
      Free (redact text values) values) ∧
    (Free text values → redact text values = text) := by
  refine ⟨⟨fun h n v hv => ?_, fun h n => free_of_spared h⟩, fun h => ?_,
    fun hfree => foldl_of_absent text _ fun e he => ?_⟩
  · have hlt := (List.getElem?_eq_some_iff.mp hv).1
    exact (free_step_iff text hv (h n (Nat.le_of_lt hlt))).mp (h (n + 1) hlt)
  · have hend := free_of_spared h (Nat.le_refl values.length)
    rwa [take_length] at hend
  · exact hfree e.1 (fst_mem_of_mem_zipIdx he)

/-! ### Values without a character of a marker -/

def Plain (v : List UInt8) : Prop :=
  ∃ needle, v = Utf8.encode needle ∧ ∀ c ∈ needle, ∀ i, c ∉ marker i

theorem mem_marker {i : Nat} {c : Char} (h : c ∈ marker i) :
    c ∈ "]-[REDACTED:secret".toList ∨ c.isDigit = true := by
  have hfixed : "[REDACTED:secret-".toList ++ [']'] ⊆ "]-[REDACTED:secret".toList := by
    decide +kernel
  rcases mem_append.mp h with h | h
  · rcases mem_append.mp h with h | h
    · exact .inl (hfixed (mem_append_left _ h))
    · exact .inr (Nat.isDigit_of_mem_toDigits (by decide) (by decide) h)
  · exact .inl (hfixed (mem_append_right _ h))

theorem ascii_marker (i : Nat) : ∀ c ∈ marker i, c.toNat < 0x80 := by
  have hfixed : ∀ n ∈ "]-[REDACTED:secret".toList.map Char.toNat, n < 0x80 := by decide +kernel
  intro c hc
  rcases mem_marker hc with h | h
  · exact hfixed _ (mem_map_of_mem h)
  · rw [Char.isDigit_iff_toNat] at h
    exact Nat.lt_of_le_of_lt h.2 (by decide)

theorem spared_of_plain (h : ∀ u ∈ values, Plain u) (hv : v ∈ values) (out : List Char) (i : Nat) :
    Spared out i v values := by
  obtain ⟨needle, rfl, -⟩ := h v hv
  rw [Spared, Utf8.decode_encode]
  rintro - - u hu hne
  obtain ⟨other, rfl, hother⟩ := h u hu
  refine not_crosses hne (fun b hb hmem => ?_) (fun hnil => ?_) _
  · have hascii := Utf8.ascii_of_mem_encode (ascii_marker i) hb
    exact hother _ (Utf8.ofNat_mem_of_mem_encode hascii hmem) i
      (Utf8.ofNat_mem_of_mem_encode hascii hb)
  · have hback := Utf8.lossy_encode (marker i)
    rw [hnil] at hback
    cases hback

theorem spared_all (h : ∀ u ∈ values, Plain u) (text : List Char) (n : Nat) (v : List UInt8)
    (hv : values[n]? = some v) :
    Spared (redact text (values.take n)) n v (values.take (n + 1)) := by
  refine spared_of_plain (fun u hu => h u (mem_of_mem_take hu)) ?_ _ n
  rw [take_add_one, hv]
  exact mem_append_right _ mem_cons_self

/-- **UTF-8 values that have no character of a marker are all gone.** -/
theorem free_of_plain (h : ∀ u ∈ values, Plain u) (text : List Char) :
    Free (redact text values) values := by
  have hend := free_of_spared (spared_all h text) (Nat.le_refl values.length)
  rwa [take_length] at hend

def twoValues : List (List UInt8) := [Utf8.encode "hunny".toList, Utf8.encode "müll".toList]

/-- Two values, one of them twice in the text. -/
theorem redacted_iff_twoValues :
    redact "hunny, müll and hunny".toList twoValues
        = "[REDACTED:secret-0], [REDACTED:secret-1] and [REDACTED:secret-0]".toList ∧
      Free (redact "hunny, müll and hunny".toList twoValues) twoValues := by
  have hplain : ∀ u ∈ twoValues, Plain u := by
    have hfree : ∀ needle ∈ ["hunny".toList, "müll".toList],
        needle.all (fun c => c ∉ "]-[REDACTED:secret".toList ∧ c.isDigit = false) := by
      decide +kernel
    intro u hu
    obtain ⟨needle, hneedle, rfl⟩ := mem_map.mp
      (show u ∈ ["hunny".toList, "müll".toList].map Utf8.encode from hu)
    refine ⟨needle, rfl, fun c hc i hmem => ?_⟩
    obtain ⟨hfixed, hdigit⟩ := of_decide_eq_true (all_eq_true.mp (hfree needle hneedle) c hc)
    rcases mem_marker hmem with h | h
    · exact hfixed h
    · exact Bool.false_ne_true (hdigit.symm.trans h)
  exact ⟨by decide +kernel, (redacted_iff _ twoValues).2.1 (spared_all hplain _)⟩

/-- The word `secret` is in the marker that is put for it. -/
theorem redact_leaks :
    redact "secret".toList [Utf8.encode "secret".toList] = "[REDACTED:secret-0]".toList ∧
      ¬ Free (redact "secret".toList [Utf8.encode "secret".toList]) [Utf8.encode "secret".toList] := by
  have hredact : redact "secret".toList [Utf8.encode "secret".toList] = "[REDACTED:secret-0]".toList := by
    show redactValue "secret".toList (Utf8.encode "secret".toList, 0) = _
    rw [redactValue, if_neg (by decide)]
    rw [Utf8.decode_encode]
    decide
  refine ⟨hredact, fun hfree => hfree _ mem_cons_self (by decide) ?_⟩
  rw [hredact]
  exact encode_within ⟨"[REDACTED:".toList, "-0]".toList, by decide⟩

end Modbit.Secrets
