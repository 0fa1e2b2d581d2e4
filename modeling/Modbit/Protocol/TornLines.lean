import Modbit.Lib.Fallible
import Modbit.Protocol.Durability

/-!
# A journal with lines that were cut off

An append may stop after any number of bytes, and the next one goes on where it stopped, on the
same line.  `Jotted` is what a file can hold then.  No record is made up by that:
`jotted_offered` says that a store opens, if it opens, with records that were handed to `append`.

What this needs of serde_json is `RecordJson.Unspliced`: the beginnings of several records one after
the other are no record.  `unspliced_serdeRecord` proves it of the text the records have, in which the
lead of a record does not occur again (`opensOnce_recordChars`).
-/

namespace Modbit

open Lib List

namespace ProtocolState

variable {json : RecordJson} {S : ProtocolRecord → Prop}

/-- Two or more beginnings of records on one line are no record. -/
def RecordJson.Unspliced (json : RecordJson) : Prop :=
  ∀ pieces : List (List Char), 2 ≤ pieces.length →
    (∀ p ∈ pieces, p ≠ [] ∧ ∃ r, p <+: json.toText r) → json.fromText pieces.flatten = none

/-- What a file holds after appends of records that may each have been cut off. -/
inductive Jotted (json : RecordJson) (S : ProtocolRecord → Prop) : List UInt8 → Prop
  | nil : Jotted json S []
  | append {bytes : List UInt8} {r : ProtocolRecord} (h : Jotted json S bytes) (hr : S r) (n : Nat) :
      Jotted json S (bytes ++ (line json r).take n)

variable {bytes : List UInt8}

theorem Jotted.mono {S' : ProtocolRecord → Prop} (h : Jotted json S bytes)
    (hS : ∀ r, S r → S' r) : Jotted json S' bytes := by
  induction h with
  | nil => exact .nil
  | append _ hr n ih => exact ih.append (hS _ hr) n

/-! ### The lines -/

/-- A line that is made of beginnings of records. -/
def Pieced (json : RecordJson) (S : ProtocolRecord → Prop) (l : List Char) : Prop :=
  ∃ pieces : List (List Char), l = pieces.flatten ∧
    ∀ p ∈ pieces, p ≠ [] ∧ ∃ r, S r ∧ p <+: json.toText r

variable {l : List Char}

theorem Pieced.plain (h : Pieced json S l) : '\n' ∉ l ∧ '\r' ∉ l := by
  obtain ⟨pieces, rfl, hpieces⟩ := h
  refine ⟨fun hmem => ?_, fun hmem => ?_⟩
  · obtain ⟨p, hp, hc⟩ := mem_flatten.mp hmem
    obtain ⟨-, r, -, hpre⟩ := hpieces p hp
    exact (json.plain r).1 (hpre.subset hc)
  · obtain ⟨p, hp, hc⟩ := mem_flatten.mp hmem
    obtain ⟨-, r, -, hpre⟩ := hpieces p hp
    exact (json.plain r).2 (hpre.subset hc)

variable {r : ProtocolRecord}

theorem Pieced.append {l m : List Char} (h : Pieced json S l) (hr : S r)
    (hm : m <+: json.toText r) : Pieced json S (l ++ m) := by
  obtain ⟨pieces, rfl, hpieces⟩ := h
  by_cases hnil : m = []
  · rw [hnil, append_nil]
    exact ⟨pieces, rfl, hpieces⟩
  · refine ⟨pieces ++ [m], by simp, fun p hp => ?_⟩
    rcases mem_append.mp hp with hp | hp
    · exact hpieces p hp
    · rw [mem_singleton.mp hp]
      exact ⟨hnil, r, hr, hm⟩

theorem Pieced.offered (hjson : json.Unspliced)
    (h : Pieced json S l) (hne : l ≠ []) (hread : json.fromText l = some r) : S r := by
  obtain ⟨pieces, rfl, hpieces⟩ := h
  match pieces, hpieces with
  | [], _ => exact absurd rfl hne
  | [p], hpieces =>
    obtain ⟨-, r', hr', hpre⟩ := hpieces p mem_cons_self
    rw [flatten_singleton] at hread
    by_cases hwhole : p = json.toText r'
    · rw [hwhole, json.fromText_toText] at hread
      exact Option.some.inj hread ▸ hr'
    · rw [json.fromText_cut r' p hpre hwhole] at hread
      cases hread
  | p :: q :: rest, hpieces =>
    have hnone := hjson (p :: q :: rest) (by simp) (fun x hx => by
      obtain ⟨hx, r', -, hpre⟩ := hpieces x hx
      exact ⟨hx, r', hpre⟩)
    rw [hnone] at hread
    cases hread

def Ruled (json : RecordJson) (S : ProtocolRecord → Prop) (text : List Char) : Prop :=
  ∃ (ls : List (List Char)) (last : List Char), text = ls.flatMap (· ++ ['\n']) ++ last ∧
    (∀ l ∈ ls, Pieced json S l) ∧ Pieced json S last

theorem Ruled.append {text m : List Char} (h : Ruled json S text) (hr : S r)
    (hm : m <+: json.toText r ++ ['\n']) : Ruled json S (text ++ m) := by
  obtain ⟨ls, last, rfl, hls, hlast⟩ := h
  rcases prefix_concat_iff.mp hm with rfl | hm
  · refine ⟨ls ++ [last ++ json.toText r], [], by simp, fun l hl => ?_, [], rfl, by simp⟩
    rcases mem_append.mp hl with hl | hl
    · exact hls l hl
    · rw [mem_singleton.mp hl]
      exact hlast.append hr (prefix_refl _)
  · exact ⟨ls, last ++ m, by simp, hls, hlast.append hr hm⟩

theorem Jotted.ruled (h : Jotted json S bytes) :
    ∀ {text : List Char}, Utf8.decode bytes = some text → Ruled json S text := by
  induction h with
  | nil =>
    intro text htext
    have hnil : Utf8.decode (Utf8.encode []) = some [] := Utf8.decode_encode []
    obtain rfl := Option.some.inj (hnil.symm.trans htext)
    exact ⟨[], [], rfl, by simp, [], rfl, by simp⟩
  | append _ hr n ih =>
    intro text htext
    obtain ⟨s, m, hs, hm, -, rfl⟩ := Utf8.decode_append_take htext
    exact (ih hs).append hr hm

/-! ### Opening -/

theorem mem_replay : ∀ {ls : List (List Char)} {rs : List ProtocolRecord}, replay json ls = .ok rs →
    ∀ r ∈ rs, ∃ l ∈ ls, json.fromText l = some r := by
  intro ls
  induction ls with
  | nil =>
    intro rs h r hr
    rw [replay] at h
    rw [← Except.ok.inj h] at hr
    cases hr
  | cons l ls ih =>
    intro rs h r hr
    cases ls with
    | nil =>
      rw [replay] at h
      cases hl : json.fromText l with
      | none =>
        rw [hl] at h
        rw [← Except.ok.inj h] at hr
        cases hr
      | some r' =>
        rw [hl] at h
        rw [← Except.ok.inj h] at hr
        rw [mem_singleton.mp hr]
        exact ⟨l, mem_cons_self, hl⟩
    | cons next rest =>
      rw [replay] at h
      cases hl : json.fromText l with
      | none =>
        rw [hl] at h
        cases h
      | some r' =>
        rw [hl] at h
        obtain ⟨rs', hrs', rfl⟩ := map_eq_ok.mp h
        rcases mem_cons.mp hr with rfl | hr
        · exact ⟨l, mem_cons_self, hl⟩
        · obtain ⟨l', hl', hr'⟩ := ih hrs' r hr
          exact ⟨l', mem_cons_of_mem l hl', hr'⟩

/-- **A store opens with nothing that was not offered to it.** -/
theorem jotted_offered {store : ProtocolStateStore} (hjson : json.Unspliced)
    (h : Jotted json S bytes) (hopen : openStore json (some bytes) = .ok store) :
    ∀ r ∈ store.records, S r := by
  rw [openStore] at hopen
  cases htext : Utf8.decode bytes with
  | none =>
    rw [htext] at hopen
    cases hopen
  | some text =>
    rw [htext] at hopen
    obtain ⟨rs, hrs, rfl⟩ := map_eq_ok.mp hopen
    intro r hr
    obtain ⟨l, hl, hread⟩ := mem_replay hrs r hr
    obtain ⟨hl, hne⟩ := mem_filter.mp hl
    obtain ⟨ls, last, rfl, hls, hlast⟩ := h.ruled htext
    rw [Text.lines_unlines (fun l hl => (hls l hl).plain) hlast.plain.1] at hl
    refine Pieced.offered hjson ?_ (of_decide_eq_true hne) hread
    rcases mem_append.mp hl with hl | hl
    · exact hls l hl
    · split_ifs at hl
      · cases hl
      · rw [mem_singleton.mp hl]
        exact hlast

/-! ### The text of the records -/

def opens : List Char → Bool
  | [] => false
  | c :: l => ['\x7b', '\x22', 'k'].isPrefixOf (c :: l) || opens l

variable {a : List Char}

theorem opens_append_of_not_mem (h : '\x7b' ∉ a) (b : List Char) : opens (a ++ b) = opens b := by
  induction a with
  | nil => rfl
  | cons c a ih =>
    have hc : ('\x7b' == c) = false := by
      rw [beq_eq_false_iff_ne]
      exact fun he => h (he ▸ mem_cons_self)
    rw [cons_append, opens, isPrefixOf_cons_cons, hc, Bool.false_and, Bool.false_or]
    exact ih (fun hmem => h (mem_cons_of_mem c hmem))

theorem escapeChar_head (d : Char) : ∃ a as, Json.escapeChar d = a :: as ∧ a ≠ '\x22' := by
  rcases JsonText.escapeChar_cases d with ⟨heq, -, hquote, -⟩ | ⟨e, heq, -⟩ | ⟨heq, -⟩
  · exact ⟨_, _, heq, hquote⟩
  · exact ⟨_, _, heq, by decide⟩
  · exact ⟨_, _, heq, by decide⟩

theorem brace_mem_escapeChar {d : Char} (h : '\x7b' ∈ Json.escapeChar d) : d = '\x7b' := by
  have hdigit : ∀ n < 16, '\x7b' ≠ Nat.digitChar n := by decide
  rcases JsonText.escapeChar_cases d with ⟨heq, -⟩ | ⟨e, heq, -, -, hd⟩ | ⟨heq, hctl⟩
  · rw [heq] at h
    exact (mem_singleton.mp h).symm
  · rw [heq] at h
    rw [← hd, ← (mem_pair.mp h).resolve_left (by decide)]
    decide
  · have hhigh := hdigit (d.toNat / 16) (by omega)
    have hlow := hdigit (d.toNat % 16) (by omega)
    rw [heq] at h
    simp [hhigh, hlow] at h

theorem opens_string {c : Char} (hc : c ≠ 'k') (rest : List Char) : ∀ s : List Char,
    opens (s.flatMap Json.escapeChar ++ '\x22' :: c :: rest) = opens (c :: rest) := by
  intro s
  induction s with
  | nil =>
    rw [flatMap_nil, nil_append, opens]
    rfl
  | cons d s ih =>
    rw [flatMap_cons, append_assoc]
    by_cases hd : d = '\x7b'
    · have hnext : ['\x22', 'k'].isPrefixOf (s.flatMap Json.escapeChar ++ '\x22' :: c :: rest) = false := by
        cases s with
        | nil =>
          have hk : ('k' == c) = false := beq_eq_false_iff_ne.mpr (Ne.symm hc)
          rw [flatMap_nil, nil_append, isPrefixOf_cons_cons,
            isPrefixOf_cons_cons, hk, Bool.false_and, Bool.and_false]
        | cons d' s =>
          obtain ⟨a, as, ha, hquote⟩ := escapeChar_head d'
          have hne : ('\x22' == a) = false := beq_eq_false_iff_ne.mpr (Ne.symm hquote)
          rw [flatMap_cons, ha, cons_append, cons_append, isPrefixOf_cons_cons, hne, Bool.false_and]
      have hbrace : Json.escapeChar '\x7b' = ['\x7b'] := by decide
      rw [hd, hbrace, singleton_append, opens, isPrefixOf_cons_cons, hnext, Bool.and_false,
        Bool.false_or, ih]
    · rw [opens_append_of_not_mem (fun h => hd (brace_mem_escapeChar h)), ih]

/-- The rest of a record after one of its strings. -/
structure Tail (l : List Char) : Prop where
  head : ∃ c rest, l = c :: rest ∧ c ≠ 'k'
  opens : opens l = false
  last : l.getLast? = some '\x7d'

theorem tail_end : Tail ['\x7d'] := ⟨⟨_, _, rfl, by decide⟩, by decide, rfl⟩

variable {rest : List Char}

theorem Tail.append (h : Tail rest) (hbrace : '\x7b' ∉ a)
    (hhead : a.head? = some ',') : Tail (a ++ rest) := by
  obtain ⟨l, rfl⟩ := head?_eq_some_iff.mp hhead
  refine ⟨⟨',', l ++ rest, rfl, by decide⟩, ?_, ?_⟩
  · rw [opens_append_of_not_mem hbrace, h.opens]
  · rw [getLast?_append, h.last]
    rfl

theorem Tail.strField {name : String} (h : Tail rest) (value : String)
    (hbrace : '\x7b' ∉ fieldLead name) (hhead : (fieldLead name).head? = some ',') :
    Tail (strField name value rest) := by
  have hopen : ProtocolState.strField name value rest
      = (fieldLead name ++ ['\x22']) ++ (value.toList.flatMap Json.escapeChar ++ '\x22' :: rest) := by
    rw [ProtocolState.strField, JsonText.quoted]
    simp
  obtain ⟨l, hl⟩ := head?_eq_some_iff.mp hhead
  refine ⟨⟨',', _, by rw [hopen, hl]; rfl, by decide⟩, ?_, ?_⟩
  · obtain ⟨c, rest, rfl, hc⟩ := h.head
    rw [hopen, opens_append_of_not_mem, opens_string hc, h.opens]
    intro hmem
    rcases mem_append.mp hmem with hmem | hmem
    · exact hbrace hmem
    · exact absurd hmem (by decide)
  · rw [hopen, getLast?_append, getLast?_append, getLast?_cons, h.last]
    rfl

/-- The lead of a record is at its beginning and nowhere else. -/
structure OpensOnce (l : List Char) : Prop where
  head : ∃ rest, l = '\x7b' :: '\x22' :: 'k' :: rest ∧ opens ('\x22' :: 'k' :: rest) = false
  last : l.getLast? = some '\x7d'

theorem Tail.kindLead {kind : String} (h : Tail rest)
    (hkind : ∃ lead, kindLead kind = '\x7b' :: '\x22' :: 'k' :: lead ∧ '\x7b' ∉ '\x22' :: 'k' :: lead) :
    OpensOnce (kindLead kind ++ rest) := by
  obtain ⟨lead, hlead, hbrace⟩ := hkind
  refine ⟨⟨lead ++ rest, by rw [hlead]; rfl, ?_⟩, ?_⟩
  · have happend := opens_append_of_not_mem hbrace rest
    rwa [h.opens] at happend
  · rw [getLast?_append, h.last]
    rfl

theorem opensOnce_recordChars (r : ProtocolRecord) : OpensOnce (recordChars r []) := by
  cases r with
  | toolCall callId name arguments status =>
    refine Tail.kindLead ?_ ⟨_, rfl, by decide⟩
    iterate 4 refine Tail.strField ?_ _ (by decide) (by decide)
    exact tail_end
  | approvalRequest approvalId tool scope status =>
    refine Tail.kindLead ?_ ⟨_, rfl, by decide⟩
    iterate 4 refine Tail.strField ?_ _ (by decide) (by decide)
    exact tail_end
  | question questionId text answered =>
    refine Tail.kindLead ?_ ⟨_, rfl, by decide⟩
    iterate 2 refine Tail.strField ?_ _ (by decide) (by decide)
    rw [← append_assoc]
    cases answered with
    | true => exact tail_end.append (by decide) (by decide)
    | false => exact tail_end.append (by decide) (by decide)
  | terminalCursor runId offset =>
    refine Tail.kindLead ?_ ⟨_, rfl, by decide⟩
    refine Tail.strField ?_ _ (by decide) (by decide)
    rw [← append_assoc]
    refine tail_end.append (fun hmem => ?_) rfl
    rcases mem_append.mp hmem with hmem | hmem
    · exact absurd hmem (by decide)
    · exact absurd (Nat.isDigit_of_mem_toDigits (by decide) (by decide) hmem) (by decide)
  | subagent subagentId task state =>
    refine Tail.kindLead ?_ ⟨_, rfl, by decide⟩
    iterate 3 refine Tail.strField ?_ _ (by decide) (by decide)
    exact tail_end

theorem opens_of_append {a b : List Char} (h : opens (a ++ b) = false) : opens b = false := by
  induction a with
  | nil => exact h
  | cons c a ih =>
    rw [cons_append, opens, Bool.or_eq_false_iff] at h
    exact ih h.2

/-- **A text that goes on with the beginning of another record is no record.** -/
theorem unspliced_serdeRecord : serdeRecord.Unspliced := by
  intro pieces hlen hpieces
  by_contra hread
  obtain ⟨r, hr⟩ := Option.ne_none_iff_exists'.mp hread
  have hwhole : recordChars r [] = pieces.flatten := by
    obtain ⟨a, ha, rfl⟩ := Option.map_eq_some_iff.mp hr
    exact (of_decide_eq_true (Option.filter_eq_some_iff.mp ha).2).2
  have honce := opensOnce_recordChars r
  rw [hwhole] at honce
  -- the last piece, and something before it
  obtain ⟨front, last, rfl⟩ := (eq_nil_or_concat pieces).resolve_left
    (fun h => by rw [h] at hlen; cases hlen)
  rw [concat_eq_append] at hlen hpieces honce
  obtain ⟨hne, r', hpre⟩ := hpieces last (by simp)
  obtain ⟨⟨rest', hr', -⟩, -⟩ := opensOnce_recordChars r'
  have hfirst : ∃ c text, front.flatten = c :: text := by
    cases front with
    | nil => simp at hlen
    | cons p front =>
      obtain ⟨c, text, rfl⟩ := exists_cons_of_ne_nil (hpieces p (by simp)).1
      exact ⟨c, text ++ front.flatten, rfl⟩
  obtain ⟨c, text, htext⟩ := hfirst
  obtain ⟨⟨rest, hrest, hrest'⟩, hlast⟩ := honce
  rw [flatten_concat, htext, cons_append] at hrest hlast
  obtain ⟨-, hrest⟩ := List.cons.inj hrest
  rw [← hrest] at hrest'
  replace hpre : last <+: '\x7b' :: '\x22' :: 'k' :: rest' := hr' ▸ hpre
  clear hread hr hwhole hpieces
  match last, hne, hpre with
  | [a], _, hpre =>
    obtain ⟨rfl, -⟩ := cons_prefix_cons.mp hpre
    rw [← cons_append, getLast?_concat] at hlast
    cases hlast
  | [a, b], _, hpre =>
    obtain ⟨-, htail⟩ := cons_prefix_cons.mp hpre
    obtain ⟨rfl, -⟩ := cons_prefix_cons.mp htail
    rw [← cons_append, getLast?_append] at hlast
    cases hlast
  | a :: b :: d :: l, _, hpre =>
    obtain ⟨rfl, htail⟩ := cons_prefix_cons.mp hpre
    obtain ⟨rfl, hkind⟩ := cons_prefix_cons.mp htail
    obtain ⟨rfl, -⟩ := cons_prefix_cons.mp hkind
    have hagain := opens_of_append hrest'
    rw [opens] at hagain
    cases hagain

end ProtocolState

end Modbit
