import Modbit.Lib.JsonText

/-!
# Documents and their texts

A document can be read off its compact text, where the texts of its floating-point values are texts of
numbers and not those of natural numbers (`Plain`): `render_inj`.  The induction is on the document, with
what follows the text carried along; a number ends where something follows that is not part of one
(`Ends`).
-/

namespace Modbit.Lib.Json

open JsonText List

def numberChar (c : Char) : Bool := c.isDigit || ['-', '+', '.', 'e', 'E'].contains c

/-- The text of a number that is not a natural number. -/
def NumberText (t : String) : Prop :=
  (∀ c ∈ t.toList, numberChar c = true) ∧ ∃ c ∈ t.toList, c.isDigit = false

mutual

def Plain : Json → Prop
  | .float t => NumberText t
  | .arr items => PlainItems items
  | .obj fields => PlainFields fields
  | _ => True

def PlainItems : List Json → Prop
  | [] => True
  | j :: items => Plain j ∧ PlainItems items

def PlainFields : List (String × Json) → Prop
  | [] => True
  | (_, j) :: fields => Plain j ∧ PlainFields fields

end

def Ends (rest : List Char) : Prop := ∀ c ∈ rest.head?, numberChar c = false

/-! ### Texts as characters -/

def text (j : Json) : List Char := j.render.toList

def itemsText (items : List Json) : List Char := (renderItems items).toList

def fieldsText (fields : List (String × Json)) : List Char := (renderFields fields).toList

def moreItems : List Json → List Char
  | [] => []
  | items => ',' :: itemsText items

def moreFields : List (String × Json) → List Char
  | [] => []
  | fields => ',' :: fieldsText fields

theorem toList_quote (s : String) : (quote s).toList = quoted s := by
  simp only [quote, String.toList_append, String.toList_ofList]
  rfl

theorem text_num (n : Nat) : text (.num n) = Nat.toDigits 10 n := by
  rw [text, render]
  exact String.toList_ofList

theorem text_arr (items : List Json) : text (.arr items) = '[' :: (itemsText items ++ [']']) := by
  rw [text, render, String.toList_append, String.toList_append, append_assoc]
  rfl

theorem text_obj (fields : List (String × Json)) :
    text (.obj fields) = '\x7b' :: (fieldsText fields ++ ['\x7d']) := by
  rw [text, render, String.toList_append, String.toList_append, append_assoc]
  rfl

theorem itemsText_cons (j : Json) (items : List Json) :
    itemsText (j :: items) = text j ++ moreItems items := by
  cases items with
  | nil => rw [itemsText, renderItems, moreItems, append_nil, text]
  | cons k items =>
    rw [itemsText, renderItems, String.toList_append, String.toList_append, append_assoc]
    rfl

theorem fieldsText_cons (name : String) (j : Json) (fields : List (String × Json)) :
    fieldsText ((name, j) :: fields) = quoted name ++ ':' :: (text j ++ moreFields fields) := by
  cases fields with
  | nil =>
    rw [fieldsText, renderFields, String.toList_append, String.toList_append, toList_quote,
      append_assoc, moreFields, append_nil]
    rfl
  | cons f fields =>
    rw [fieldsText, renderFields, String.toList_append, String.toList_append, String.toList_append,
      String.toList_append, toList_quote]
    simp only [append_assoc]
    rfl

/-! ### How a text begins -/

/-- The first character of the text; `0` for all numbers. -/
def lead : Json → Char
  | .null => 'n'
  | .bool b => if b then 't' else 'f'
  | .num _ => '0'
  | .float _ => '0'
  | .str _ => '\x22'
  | .arr _ => '['
  | .obj _ => '\x7b'

def leadOf (c : Char) : Char := if numberChar c = true then '0' else c

theorem numberChar_of_isDigit {c : Char} (h : c.isDigit = true) : numberChar c = true := by
  rw [numberChar, h]
  rfl

variable {j : Json}

theorem exists_lead (h : j.Plain) : ∃ c rest, text j = c :: rest ∧ leadOf c = j.lead := by
  have hnumber : ∀ l : List Char, l ≠ [] → (∀ c ∈ l, numberChar c = true) →
      ∃ c rest, l = c :: rest ∧ leadOf c = '0' := by
    intro l hl hall
    obtain ⟨c, rest, rfl⟩ := exists_cons_of_ne_nil hl
    exact ⟨c, rest, rfl, if_pos (hall c mem_cons_self)⟩
  cases j with
  | null => exact ⟨'n', _, rfl, rfl⟩
  | bool b =>
    cases b with
    | true => exact ⟨'t', _, rfl, rfl⟩
    | false => exact ⟨'f', _, rfl, rfl⟩
  | num n =>
    rw [text_num]
    exact hnumber _ Nat.toDigits_ne_nil (fun c hc =>
      numberChar_of_isDigit (Nat.isDigit_of_mem_toDigits (by decide) (by decide) hc))
  | float t =>
    obtain ⟨c, hc, -⟩ := h.2
    exact hnumber t.toList (ne_nil_of_mem hc) h.1
  | str s =>
    exact ⟨'\x22', s.toList.flatMap escapeChar ++ ['\x22'], toList_quote s, rfl⟩
  | arr items => exact ⟨'[', _, text_arr items, rfl⟩
  | obj fields => exact ⟨'\x7b', _, text_obj fields, rfl⟩

theorem quoted_inj {s t : String} {r r' : List Char} (h : quoted s ++ r = quoted t ++ r') :
    s = t ∧ r = r' := by
  have hread := congrArg readQuoted h
  rw [readQuoted_append, readQuoted_append] at hread
  exact Prod.mk.inj (Option.some.inj hread)

theorem number_inj {l m r r' : List Char} (hl : ∀ c ∈ l, numberChar c = true)
    (hm : ∀ c ∈ m, numberChar c = true) (hr : Ends r) (hr' : Ends r') (h : l ++ r = m ++ r') :
    l = m ∧ r = r' := by
  have htake : ∀ {l r : List Char}, (∀ c ∈ l, numberChar c = true) → Ends r →
      (l ++ r).takeWhile numberChar = l := by
    intro l r hl hr
    rw [takeWhile_append_of_pos hl]
    cases r with
    | nil => rw [takeWhile_nil, append_nil]
    | cons c r =>
      rw [takeWhile_cons_of_neg (by rw [hr c rfl]; exact Bool.false_ne_true), append_nil]
  have hlm := congrArg (List.takeWhile numberChar) h
  rw [htake hl hr, htake hm hr'] at hlm
  exact ⟨hlm, append_cancel_left (hlm ▸ h)⟩

theorem ends_moreItems (items : List Json) (r : List Char) : Ends (moreItems items ++ ']' :: r) := by
  cases items <;> exact fun c hc => by cases hc; rfl

theorem ends_moreFields (fields : List (String × Json)) (r : List Char) :
    Ends (moreFields fields ++ '\x7d' :: r) := by
  cases fields <;> exact fun c hc => by cases hc; rfl

theorem not_closed (hj : j.Plain) (r r' : List Char) : ']' :: r ≠ text j ++ r' := by
  intro h
  obtain ⟨c, rest, htext, hlead⟩ := exists_lead hj
  rw [htext] at h
  obtain rfl := (List.cons.inj h).1
  have hbracket : leadOf ']' = ']' := rfl
  rw [hbracket] at hlead
  clear h htext hj
  revert hlead
  cases j <;> simp only [lead] <;> decide +revert

mutual

/-- **A text is read in one way**, whatever follows it. -/
theorem text_append_inj : ∀ (j k : Json) {r r' : List Char}, j.Plain → k.Plain → Ends r → Ends r' →
    text j ++ r = text k ++ r' → j = k ∧ r = r'
  | j, k, r, r', hj, hk, hr, hr', h => by
    have hlead : j.lead = k.lead := by
      obtain ⟨c, rest, htext, hc⟩ := exists_lead hj
      obtain ⟨d, rest', htext', hd⟩ := exists_lead hk
      rw [htext, htext'] at h
      rw [← hc, ← hd, (List.cons.inj h).1]
    have hdigits : ∀ n : Nat, ∀ c ∈ Nat.toDigits 10 n, c.isDigit = true :=
      fun n c hc => Nat.isDigit_of_mem_toDigits (by decide) (by decide) hc
    have hnumber : ∀ n : Nat, ∀ c ∈ Nat.toDigits 10 n, numberChar c = true :=
      fun n c hc => numberChar_of_isDigit (hdigits n c hc)
    cases j <;> cases k
    case null.null => exact ⟨rfl, append_cancel_left h⟩
    case bool.bool b c =>
      obtain rfl : b = c := by
        clear h hj hk
        revert hlead
        simp only [lead]
        decide +revert
      exact ⟨rfl, append_cancel_left h⟩
    case num.num m n =>
      rw [text_num, text_num] at h
      obtain ⟨hdigits, hr⟩ := number_inj (hnumber m) (hnumber n) hr hr' h
      have hmn := congrArg (fun l => Nat.ofDigitChars 10 l 0) hdigits
      simp only [Nat.ofDigitChars_ten_toDigits] at hmn
      exact ⟨congrArg _ hmn, hr⟩
    case num.float m t =>
      rw [text_num] at h
      obtain ⟨htext, -⟩ := number_inj (hnumber m) hk.1 hr hr' h
      obtain ⟨c, hc, hnot⟩ := hk.2
      cases (hdigits m c (htext ▸ hc)).symm.trans hnot
    case float.num t n =>
      rw [text_num] at h
      obtain ⟨htext, -⟩ := number_inj hj.1 (hnumber n) hr hr' h
      obtain ⟨c, hc, hnot⟩ := hj.2
      cases (hdigits n c (htext ▸ hc)).symm.trans hnot
    case float.float t t' =>
      obtain ⟨htext, hr⟩ := number_inj hj.1 hk.1 hr hr' h
      exact ⟨congrArg _ (String.toList_inj.mp htext), hr⟩
    case str.str s t =>
      rw [text, text, render, render, toList_quote, toList_quote] at h
      obtain ⟨rfl, hr⟩ := quoted_inj h
      exact ⟨rfl, hr⟩
    case arr.arr xs ys =>
      rw [text_arr, text_arr, cons_append, cons_append, append_assoc, append_assoc] at h
      obtain ⟨rfl, hr⟩ := itemsText_inj xs ys hj hk (List.cons.inj h).2
      exact ⟨rfl, hr⟩
    case obj.obj xs ys =>
      rw [text_obj, text_obj, cons_append, cons_append, append_assoc, append_assoc] at h
      obtain ⟨rfl, hr⟩ := fieldsText_inj xs ys hj hk (List.cons.inj h).2
      exact ⟨rfl, hr⟩
    -- the others begin in two ways
    all_goals
      exfalso
      clear h hj hk
      revert hlead
      simp only [lead]
      decide +revert

theorem itemsText_inj : ∀ (xs ys : List Json) {r r' : List Char}, PlainItems xs → PlainItems ys →
    itemsText xs ++ ']' :: r = itemsText ys ++ ']' :: r' → xs = ys ∧ r = r'
  | [], [], _, _, _, _, h => ⟨rfl, (List.cons.inj h).2⟩
  | [], y :: ys, _, _, _, hys, h => by
    rw [itemsText_cons, append_assoc] at h
    exact absurd h (not_closed hys.1 _ _)
  | x :: xs, [], _, _, hxs, _, h => by
    rw [itemsText_cons, append_assoc] at h
    exact absurd h.symm (not_closed hxs.1 _ _)
  | x :: xs, y :: ys, _, _, hxs, hys, h => by
    rw [itemsText_cons, itemsText_cons, append_assoc, append_assoc] at h
    obtain ⟨rfl, hmore⟩ := text_append_inj x y hxs.1 hys.1 (ends_moreItems _ _) (ends_moreItems _ _) h
    match xs, ys, hmore with
    | [], [], hmore => exact ⟨rfl, (List.cons.inj hmore).2⟩
    | [], _ :: _, hmore => exact absurd (List.cons.inj hmore).1 (by decide)
    | _ :: _, [], hmore => exact absurd (List.cons.inj hmore).1 (by decide)
    | x' :: xs, y' :: ys, hmore =>
      obtain ⟨hsame, hr⟩ := itemsText_inj (x' :: xs) (y' :: ys) hxs.2 hys.2 (List.cons.inj hmore).2
      exact ⟨congrArg _ hsame, hr⟩

theorem fieldsText_inj : ∀ (xs ys : List (String × Json)) {r r' : List Char}, PlainFields xs →
    PlainFields ys → fieldsText xs ++ '\x7d' :: r = fieldsText ys ++ '\x7d' :: r' → xs = ys ∧ r = r'
  | [], [], _, _, _, _, h => ⟨rfl, (List.cons.inj h).2⟩
  | [], (name, y) :: ys, _, _, _, _, h => by
    rw [fieldsText_cons] at h
    exact absurd (List.cons.inj h).1 (by decide)
  | (name, x) :: xs, [], _, _, _, _, h => by
    rw [fieldsText_cons] at h
    exact absurd (List.cons.inj h).1 (by decide)
  | (name, x) :: xs, (name', y) :: ys, _, _, hxs, hys, h => by
    rw [fieldsText_cons, fieldsText_cons, append_assoc, append_assoc] at h
    obtain ⟨rfl, hvalue⟩ := quoted_inj h
    rw [cons_append, cons_append, List.cons.injEq, append_assoc, append_assoc] at hvalue
    obtain ⟨rfl, hmore⟩ := text_append_inj x y hxs.1 hys.1 (ends_moreFields _ _)
      (ends_moreFields _ _) hvalue.2
    match xs, ys, hmore with
    | [], [], hmore => exact ⟨rfl, (List.cons.inj hmore).2⟩
    | [], _ :: _, hmore => exact absurd (List.cons.inj hmore).1 (by decide)
    | _ :: _, [], hmore => exact absurd (List.cons.inj hmore).1 (by decide)
    | x' :: xs, y' :: ys, hmore =>
      obtain ⟨hsame, hr⟩ := fieldsText_inj (x' :: xs) (y' :: ys) hxs.2 hys.2 (List.cons.inj hmore).2
      exact ⟨congrArg _ hsame, hr⟩

end

/-- **A document is read off its text.** -/
theorem render_inj {j k : Json} (hj : j.Plain) (hk : k.Plain) (h : j.render = k.render) : j = k := by
  have htext : text j ++ [] = text k ++ [] := by rw [text, text, h]
  exact (text_append_inj j k hj hk (fun _ hc => (by cases hc)) (fun _ hc => (by cases hc)) htext).1

end Modbit.Lib.Json
