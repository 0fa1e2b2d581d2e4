import Modbit.Lib.JsonText
import Modbit.Lib.Jsonl

/-!
# Formats of compact JSON

A format writes a value and reads it back from whatever follows it, with no control
characters in between.  Formats are put together from literals, strings, numbers and lists,
so that a record's format needs no proof of its own: `Format.seq` and `Format.via`.
`Format.codec` makes a line of it.
-/

namespace Modbit.Lib

open List

def NoControl (l : List Char) : Prop := ∀ c ∈ l, 0x20 ≤ c.toNat

instance (l : List Char) : Decidable (NoControl l) := List.decidableBAll _ l

theorem NoControl.append {l m : List Char} (hl : NoControl l) (hm : NoControl m) :
    NoControl (l ++ m) := by
  intro c hc
  rcases mem_append.mp hc with h | h
  · exact hl c h
  · exact hm c h

structure Format (α : Type) where
  write : α → List Char
  read : List Char → Option (α × List Char)
  read_write : ∀ a rest, read (write a ++ rest) = some (a, rest)
  noControl : ∀ a, NoControl (write a)

namespace Format

variable {α β : Type}

/-! ### Pieces -/

def lit (s : String) (h : NoControl s.toList) : Format Unit where
  write _ := s.toList
  read l := (JsonText.readLit s.toList l).map (fun rest => ((), rest))
  read_write _ rest := by rw [JsonText.readLit_append]; rfl
  noControl _ := h

theorem noControl_brace : NoControl "\x7d".toList := by decide

theorem noControl_escapeChar (c : Char) : NoControl (Json.escapeChar c) := by
  have hdigit : ∀ n < 16, 0x20 ≤ (Nat.digitChar n).toNat := by decide
  rcases JsonText.escapeChar_cases c with ⟨heq, hc, -⟩ | ⟨d, heq, hd, -⟩ | ⟨heq, hctl⟩
  · rw [heq]
    intro e he
    rw [mem_singleton.mp he]
    exact hc
  · rw [heq]
    intro e he
    rcases mem_pair.mp he with rfl | rfl
    · decide
    · exact hd
  · rw [heq]
    refine NoControl.append (l := ['\\', 'u', '0', '0']) (by decide) (fun d hd => ?_)
    rcases mem_pair.mp hd with rfl | rfl
    · exact hdigit _ (by omega)
    · exact hdigit _ (Nat.mod_lt _ (by omega))

theorem noControl_quoted (s : String) : NoControl (JsonText.quoted s) := by
  have hbody : NoControl (s.toList.flatMap Json.escapeChar) := by
    intro c hc
    obtain ⟨d, -, hd⟩ := mem_flatMap.mp hc
    exact noControl_escapeChar d c hd
  exact ((show NoControl ['\x22'] by decide).append hbody).append (by decide)

def str : Format String where
  write := JsonText.quoted
  read := JsonText.readQuoted
  read_write := JsonText.readQuoted_append
  noControl := noControl_quoted

/-- A string or `null`. -/
def optStr : Format (Option String) where
  write
    | none => "null".toList
    | some s => JsonText.quoted s
  read l :=
    match JsonText.readLit "null".toList l with
    | some rest => some (none, rest)
    | none => (JsonText.readQuoted l).map (fun r => (some r.1, r.2))
  read_write a rest := by
    cases a with
    | none => rw [JsonText.readLit_append]
    | some s =>
      have hnull : JsonText.readLit "null".toList (JsonText.quoted s ++ rest) = none := rfl
      rw [hnull, JsonText.readQuoted_append]
      rfl
  noControl a := by
    cases a with
    | none => exact (by decide : NoControl "null".toList)
    | some s => exact noControl_quoted s

def bool : Format Bool where
  write b := (if b then "true" else "false").toList
  read l :=
    ((JsonText.readLit "true".toList l).map (fun rest => (true, rest))).or
      ((JsonText.readLit "false".toList l).map (fun rest => (false, rest)))
  read_write b rest := by
    cases b with
    | true =>
      rw [if_pos rfl, JsonText.readLit_append]
      rfl
    | false =>
      have hfalse : "false".toList = ['f', 'a', 'l', 's', 'e'] := by decide
      have htrue : "true".toList = ['t', 'r', 'u', 'e'] := by decide
      rw [if_neg (by decide), JsonText.readLit_append, hfalse, htrue]
      rfl
  noControl b := by
    cases b with
    | true => exact (by decide : NoControl "true".toList)
    | false => exact (by decide : NoControl "false".toList)

def natBefore (c : Char) (hc : c.isDigit = false) (hp : 0x20 ≤ c.toNat) : Format Nat where
  write n := Nat.toDigits 10 n ++ [c]
  read l := (JsonText.readNat l).bind (fun r =>
    (JsonText.readLit [c] r.2).map (fun rest => (r.1, rest)))
  read_write n rest := by
    have hstops : JsonText.Stops ([c] ++ rest) := fun d hd => by
      rw [← Option.some.inj hd]
      exact hc
    rw [List.append_assoc, JsonText.readNat_append n hstops, Option.bind_some]
    dsimp only
    rw [JsonText.readLit_append]
    rfl
  noControl n := by
    refine NoControl.append (fun d hd => ?_) (fun d hd => ?_)
    · have hdigit := Nat.isDigit_of_mem_toDigits (by decide) (by decide) hd
      rw [Char.isDigit, Bool.and_eq_true, decide_eq_true_eq, decide_eq_true_eq] at hdigit
      have hlow : (48 : UInt32).toNat ≤ d.val.toNat := UInt32.le_iff_toNat_le.mp hdigit.1
      have h48 : (48 : UInt32).toNat = 48 := rfl
      exact Nat.le_trans (by omega) hlow
    · rw [List.mem_singleton.mp hd]
      exact hp

/-- The strings of a list that is not empty, and its closing bracket. -/
def writeItems (s : String) : List String → List Char
  | [] => JsonText.quoted s ++ [']']
  | t :: rest => JsonText.quoted s ++ ',' :: writeItems t rest

/-- Strings up to the closing bracket; the number bounds how many there are. -/
def readItems : Nat → List Char → Option (List String × List Char)
  | 0, _ => none
  | n + 1, l =>
    match JsonText.readQuoted l with
    | some (s, ',' :: rest) => (readItems n rest).map (fun r => (s :: r.1, r.2))
    | some (s, ']' :: rest) => some ([s], rest)
    | _ => none

theorem readItems_writeItems (ss : List String) : ∀ (s : String) (n : Nat) (rest : List Char),
    ss.length < n → readItems n (writeItems s ss ++ rest) = some (s :: ss, rest) := by
  induction ss with
  | nil =>
    intro s n rest hn
    obtain ⟨n, rfl⟩ := Nat.exists_eq_succ_of_ne_zero (Nat.ne_of_gt hn)
    rw [writeItems, readItems, append_assoc, JsonText.readQuoted_append]
    rfl
  | cons t ss ih =>
    intro s n rest hn
    obtain ⟨n, rfl⟩ := Nat.exists_eq_succ_of_ne_zero (Nat.ne_of_gt (Nat.zero_lt_of_lt hn))
    rw [length_cons] at hn
    rw [writeItems, readItems, append_assoc, JsonText.readQuoted_append, cons_append]
    show (readItems n (writeItems t ss ++ rest)).map (fun r => (s :: r.1, r.2)) = _
    rw [ih t n rest (by omega)]
    rfl

theorem length_le_writeItems (ss : List String) : ∀ s : String,
    ss.length < (writeItems s ss).length := by
  induction ss with
  | nil =>
    intro s
    rw [writeItems, length_append]
    exact Nat.lt_of_lt_of_le Nat.one_pos (Nat.le_add_left _ _)
  | cons t ss ih =>
    intro s
    have h := ih t
    rw [writeItems, length_append, length_cons, length_cons]
    omega

theorem noControl_writeItems (ss : List String) : ∀ s : String, NoControl (writeItems s ss) := by
  induction ss with
  | nil => exact fun s => (noControl_quoted s).append (by decide)
  | cons t ss ih =>
    intro s
    exact (noControl_quoted s).append ((show NoControl [','] by decide).append (ih t))

def strList : Format (List String) where
  write
    | [] => "[]".toList
    | s :: ss => '[' :: writeItems s ss
  read
    | '[' :: ']' :: rest => some ([], rest)
    | '[' :: l => readItems l.length l
    | _ => none
  read_write ss rest := by
    cases ss with
    | nil => rfl
    | cons s ss =>
      have hopen : ∃ l, writeItems s ss ++ rest = '\x22' :: l := by
        cases ss with
        | nil => exact ⟨_, rfl⟩
        | cons t ss => exact ⟨_, rfl⟩
      have hlen : ss.length < (writeItems s ss ++ rest).length := by
        rw [List.length_append]
        exact Nat.lt_of_lt_of_le (length_le_writeItems ss s) (Nat.le_add_right _ _)
      have hread := readItems_writeItems ss s _ rest hlen
      obtain ⟨l, hl⟩ := hopen
      rw [hl] at hread
      dsimp only
      rw [List.cons_append, hl]
      exact hread
  noControl ss := by
    cases ss with
    | nil => exact (by decide : NoControl "[]".toList)
    | cons s ss => exact (show NoControl ['['] by decide).append (noControl_writeItems ss s)

/-! ### Putting formats together -/

def seq (f : Format α) (g : Format β) : Format (α × β) where
  write p := f.write p.1 ++ g.write p.2
  read l := (f.read l).bind (fun a => (g.read a.2).map (fun b => ((a.1, b.1), b.2)))
  read_write p rest := by
    rw [List.append_assoc, f.read_write, Option.bind_some]
    dsimp only
    rw [g.read_write]
    rfl
  noControl p := (f.noControl p.1).append (g.noControl p.2)

/-- A format of values that another format's values stand for. -/
def via (f : Format α) (ofValue : β → α) (toValue : α → Option β)
    (h : ∀ b, toValue (ofValue b) = some b) : Format β where
  write b := f.write (ofValue b)
  read l := (f.read l).bind (fun a => (toValue a.1).map (fun b => (b, a.2)))
  read_write b rest := by
    rw [f.read_write, Option.bind_some]
    dsimp only
    rw [h]
    rfl
  noControl b := f.noControl (ofValue b)

def after (s : String) (h : NoControl s.toList) (f : Format α) : Format α :=
  ((lit s h).seq f).via (fun a => ((), a)) (fun p => some p.2) (fun _ => rfl)

def codec (f : Format α) (hsolid : ∀ a, ∃ c ∈ f.write a, Text.isWhitespace c = false) :
    Jsonl.Codec α where
  toText := f.write
  fromText l := (f.read l).bind (fun r => if r.2 = [] then some r.1 else none)
  fromText_toText a := by
    have h := f.read_write a []
    rw [List.append_nil] at h
    rw [h]
    rfl
  plain a := by
    have hcontrol := f.noControl a
    exact ⟨fun h => absurd (hcontrol _ h) (by decide), fun h => absurd (hcontrol _ h) (by decide)⟩
  solid := hsolid

end Format

end Modbit.Lib
