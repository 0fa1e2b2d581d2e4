import Mathlib.Algebra.Ring.Int.Parity
import Mathlib.Data.List.Basic

/-!
# UTF-8

`lossy` is `String::from_utf8_lossy`: the characters of a byte string, with one
replacement character for every maximal part of a sequence that is cut short.  It is
written as a machine that takes one byte at a time and remembers the sequence it is in.

`encode` and `decode` are the exact ones; `decode_append` says what a text followed by any
bytes is decoded to.

`length_lossy_le` bounds the text by the bytes, and `lossy_append_ascii` says that an ASCII
byte is its character, wherever the text before it was cut.
-/

namespace Modbit.Lib.Utf8

open List

/-- A sequence under way: its bits so far, the bounds of its next byte, and how many
bytes it still needs, less one. -/
structure Pending where
  bits : Nat
  lo : Nat
  hi : Nat
  owed : Nat

def replacement : Char := Char.ofNat 0xfffd

/-- A byte between characters: the character it is, or the sequence it starts, or
neither. -/
inductive Lead where
  | char (c : Char)
  | sequence (p : Pending)
  | invalid

def lead (b : Nat) : Lead :=
  if b < 0x80 then .char (Char.ofNat b)
  else if 0xc2 ≤ b ∧ b ≤ 0xdf then .sequence ⟨b - 0xc0, 0x80, 0xbf, 0⟩
  else if b = 0xe0 then .sequence ⟨0, 0xa0, 0xbf, 1⟩
  else if b = 0xed then .sequence ⟨0xd, 0x80, 0x9f, 1⟩
  else if 0xe1 ≤ b ∧ b ≤ 0xef then .sequence ⟨b - 0xe0, 0x80, 0xbf, 1⟩
  else if b = 0xf0 then .sequence ⟨0, 0x90, 0xbf, 2⟩
  else if 0xf1 ≤ b ∧ b ≤ 0xf3 then .sequence ⟨b - 0xf0, 0x80, 0xbf, 2⟩
  else if b = 0xf4 then .sequence ⟨4, 0x80, 0x8f, 2⟩
  else .invalid

mutual

def lossy : List UInt8 → List Char
  | [] => []
  | b :: rest =>
    match lead b.toNat with
    | .char c => c :: lossy rest
    | .sequence p => lossyIn p rest
    | .invalid => replacement :: lossy rest

/-- The text of the rest, inside a sequence.  A byte that does not continue it is
looked at again as the start of what follows. -/
def lossyIn (p : Pending) : List UInt8 → List Char
  | [] => [replacement]
  | b :: rest =>
    if p.lo ≤ b.toNat ∧ b.toNat ≤ p.hi then
      match p.owed with
      | 0 => Char.ofNat (p.bits * 0x40 + (b.toNat - 0x80)) :: lossy rest
      | n + 1 => lossyIn ⟨p.bits * 0x40 + (b.toNat - 0x80), 0x80, 0xbf, n⟩ rest
    else
      replacement :: match lead b.toNat with
        | .char c => c :: lossy rest
        | .sequence p => lossyIn p rest
        | .invalid => replacement :: lossy rest

end

theorem length_both (l : List UInt8) :
    (lossy l).length ≤ l.length ∧ ∀ p, (lossyIn p l).length ≤ l.length + 1 := by
  induction l with
  | nil => exact ⟨Nat.le_refl 0, fun p => Nat.le_refl 1⟩
  | cons b l ih =>
    obtain ⟨hout, hin⟩ := ih
    have hlead : (lossy (b :: l)).length ≤ l.length + 1 := by
      rw [lossy]
      cases lead b.toNat with
      | char c => exact Nat.succ_le_succ hout
      | sequence p => exact hin p
      | invalid => exact Nat.succ_le_succ hout
    refine ⟨hlead, fun p => ?_⟩
    rw [lossyIn, length_cons]
    split
    · split
      · have := Nat.succ_le_succ hout
        rw [length_cons]
        omega
      · exact Nat.le_succ_of_le (hin _)
    · exact Nat.succ_le_succ hlead

/-- **A text has no more characters than bytes.** -/
theorem length_lossy_le (l : List UInt8) : (lossy l).length ≤ l.length := (length_both l).1

theorem lossyIn_ne_nil (l : List UInt8) : ∀ p : Pending, lossyIn p l ≠ [] := by
  induction l with
  | nil => exact fun p => cons_ne_nil _ _
  | cons b l ih =>
    intro p
    rw [lossyIn]
    split
    · split
      · exact cons_ne_nil _ _
      · exact ih _
    · exact cons_ne_nil _ _

theorem lossy_ne_nil {l : List UInt8} (h : l ≠ []) : lossy l ≠ [] := by
  obtain ⟨b, l, rfl⟩ := exists_cons_of_ne_nil h
  rw [lossy]
  cases lead b.toNat with
  | char c => exact cons_ne_nil _ _
  | sequence p => exact lossyIn_ne_nil l p
  | invalid => exact cons_ne_nil _ _

/-! ### Bytes that are characters -/

/-- The next byte is not one of those, and the character the sequence comes to is not
either. -/
def Pending.Wide (p : Pending) : Prop :=
  0x80 ≤ p.lo ∧ 2 ≤ if p.owed = 0 then p.bits else p.bits * 0x40 + (p.lo - 0x80)

variable {b : Nat} {c : Char}

theorem char_of_lead (h : lead b = .char c) : b < 0x80 ∧ c = Char.ofNat b := by
  by_cases hlow : b < 0x80
  · exact ⟨hlow, (Lead.char.inj ((if_pos hlow).symm.trans h)).symm⟩
  · rw [lead, if_neg hlow] at h
    split_ifs at h

variable {p : Pending}

theorem lead_sequence (h : lead b = .sequence p) :
    (0xc2 ≤ b ∧ b ≤ 0xdf ∧ p = ⟨b - 0xc0, 0x80, 0xbf, 0⟩)
    ∨ (0xe0 ≤ b ∧ b ≤ 0xef ∧ p = ⟨b - 0xe0, if b = 0xe0 then 0xa0 else 0x80,
        if b = 0xed then 0x9f else 0xbf, 1⟩)
    ∨ (0xf0 ≤ b ∧ b ≤ 0xf4 ∧ p = ⟨b - 0xf0, if b = 0xf0 then 0x90 else 0x80,
        if b = 0xf4 then 0x8f else 0xbf, 2⟩) := by
  unfold lead at h
  split_ifs at h with h1 h2 h3 h4 h5 h6 h7 h8
  all_goals obtain rfl := Lead.sequence.inj h
  · exact .inl ⟨h2.1, h2.2, rfl⟩
  · subst h3
    exact .inr (.inl ⟨by decide, by decide, rfl⟩)
  · subst h4
    exact .inr (.inl ⟨by decide, by decide, rfl⟩)
  · exact .inr (.inl ⟨by omega, h5.2, by rw [if_neg h3, if_neg h4]⟩)
  · subst h6
    exact .inr (.inr ⟨by decide, by decide, rfl⟩)
  · exact .inr (.inr ⟨by omega, by omega, by rw [if_neg h6, if_neg (by omega)]⟩)
  · subst h8
    exact .inr (.inr ⟨by decide, by decide, rfl⟩)

theorem lead_wide (h : lead b = .sequence p) : p.Wide := by
  rcases lead_sequence h with ⟨hlo, -, rfl⟩ | ⟨hlo, -, rfl⟩ | ⟨hlo, -, rfl⟩
  · exact ⟨Nat.le_refl _, show 2 ≤ b - 0xc0 by omega⟩
  · show 0x80 ≤ (if b = 0xe0 then 0xa0 else 0x80)
      ∧ 2 ≤ (b - 0xe0) * 0x40 + ((if b = 0xe0 then 0xa0 else 0x80) - 0x80)
    split_ifs <;> omega
  · show 0x80 ≤ (if b = 0xf0 then 0x90 else 0x80)
      ∧ 2 ≤ (b - 0xf0) * 0x40 + ((if b = 0xf0 then 0x90 else 0x80) - 0x80)
    split_ifs <;> omega

variable {n : Nat}

theorem Pending.Wide.next (h : p.Wide) (howed : p.owed = n + 1)
    (hlo : p.lo ≤ b) : Pending.Wide ⟨p.bits * 0x40 + (b - 0x80), 0x80, 0xbf, n⟩ := by
  obtain ⟨-, hbits⟩ := h
  rw [howed, if_neg (Nat.succ_ne_zero n)] at hbits
  refine ⟨Nat.le_refl _, ?_⟩
  dsimp only
  split_ifs
  · omega
  · omega

theorem lead_ascii (h : b < 0x80) : lead b = .char (Char.ofNat b) := if_pos h

variable {a : UInt8}

theorem append_both (ha : a.toNat < 0x80) (rest l : List UInt8) :
    lossy (l ++ a :: rest) = lossy l ++ Char.ofNat a.toNat :: lossy rest ∧
      ∀ p : Pending, p.Wide →
        lossyIn p (l ++ a :: rest) = lossyIn p l ++ Char.ofNat a.toNat :: lossy rest := by
  induction l with
  | nil =>
    have hout : lossy (a :: rest) = Char.ofNat a.toNat :: lossy rest := by
      rw [lossy, lead_ascii ha]
    refine ⟨hout, fun p hp => ?_⟩
    have hcut : ¬ (p.lo ≤ a.toNat ∧ a.toNat ≤ p.hi) := fun h => by
      have := hp.1
      omega
    have hagain : lossyIn p (a :: rest) = replacement :: lossy (a :: rest) := by
      rw [lossyIn, if_neg hcut, lossy]
    rw [nil_append, hagain, hout]
    rfl
  | cons b l ih =>
    obtain ⟨hout, hin⟩ := ih
    have hlead : lossy ((b :: l) ++ a :: rest)
        = lossy (b :: l) ++ Char.ofNat a.toNat :: lossy rest := by
      rw [cons_append, lossy, lossy]
      cases hb : lead b.toNat with
      | char c => exact congrArg (c :: ·) hout
      | sequence p => exact hin p (lead_wide hb)
      | invalid => exact congrArg (replacement :: ·) hout
    refine ⟨hlead, fun p hp => ?_⟩
    rw [cons_append, lossyIn, lossyIn]
    split
    · next hb =>
      split
      · rw [hout, cons_append]
      · next howed => exact hin _ (hp.next howed hb.1)
    · exact congrArg (replacement :: ·) hlead

/-- **An ASCII byte is its character, whatever is before it.** -/
theorem lossy_append_ascii (ha : a.toNat < 0x80) (l rest : List UInt8) :
    lossy (l ++ a :: rest) = lossy l ++ Char.ofNat a.toNat :: lossy rest :=
  (append_both ha rest l).1

/-- **Zero bytes behind a text are zero characters behind it.** -/
theorem lossy_append_zeros (l : List UInt8) (n : Nat) :
    lossy (l ++ List.replicate n 0) = lossy l ++ List.replicate n (Char.ofNat 0) := by
  induction n generalizing l with
  | zero => rw [replicate_zero, replicate_zero, append_nil, append_nil]
  | succ n ih =>
    rw [replicate_succ, replicate_succ, lossy_append_ascii (by decide)]
    exact congrArg (fun rest => lossy l ++ Char.ofNat 0 :: rest) (ih [])

theorem toNat_ofNat (v : Nat) : (Char.ofNat v).toNat = if v.isValidChar then v else 0 := by
  by_cases h : v.isValidChar
  · rw [Char.ofNat, dif_pos h, if_pos h]
    exact UInt32.toNat_ofNatLT
  · rw [Char.ofNat, dif_neg h, if_neg h]
    rfl

theorem ofNat_ne_ascii {v : Nat} (hv : 0x80 ≤ v) (hpos : 0 < c.toNat)
    (hc : c.toNat < 0x80) : Char.ofNat v ≠ c := by
  rintro rfl
  rw [toNat_ofNat] at hpos hc
  split_ifs at hpos hc
  · omega
  · exact absurd hpos (Nat.lt_irrefl 0)

theorem mem_both (hpos : 0 < c.toNat) (hc : c.toNat < 0x80) (l : List UInt8) :
    (c ∈ lossy l → ∃ b ∈ l, b.toNat = c.toNat) ∧
      ∀ p : Pending, p.Wide → c ∈ lossyIn p l → ∃ b ∈ l, b.toNat = c.toNat := by
  have hreplacement : c ≠ replacement := by
    rintro rfl
    exact absurd hc (by decide)
  induction l with
  | nil =>
    exact ⟨fun h => (by cases h), fun p _ h => absurd (mem_singleton.mp h) hreplacement⟩
  | cons b l ih =>
    obtain ⟨hout, hin⟩ := ih
    have hlater : (∃ b ∈ l, b.toNat = c.toNat) → ∃ x ∈ b :: l, x.toNat = c.toNat :=
      fun ⟨x, hx, h⟩ => ⟨x, mem_cons_of_mem b hx, h⟩
    have hlead : c ∈ lossy (b :: l) → ∃ x ∈ b :: l, x.toNat = c.toNat := by
      rw [lossy]
      cases hb : lead b.toNat with
      | char d =>
        intro h
        rcases mem_cons.mp h with rfl | h
        · refine ⟨b, mem_cons_self, ?_⟩
          obtain ⟨hlow, hchar⟩ := char_of_lead hb
          rw [hchar, toNat_ofNat, if_pos (Or.inl (by omega))]
        · exact hlater (hout h)
      | sequence p => exact fun h => hlater (hin p (lead_wide hb) h)
      | invalid =>
        intro h
        exact hlater (hout ((mem_cons.mp h).resolve_left hreplacement))
    refine ⟨hlead, fun p hp => ?_⟩
    rw [lossyIn]
    split
    · next hb =>
      split
      · next howed =>
        intro h
        obtain ⟨hlo, hbits⟩ := hp
        rw [if_pos howed] at hbits
        rcases mem_cons.mp h with h | h
        · exact absurd h.symm (ofNat_ne_ascii (by omega) hpos hc)
        · exact hlater (hout h)
      · next howed => exact fun h => hlater (hin _ (hp.next howed hb.1) h)
    · intro h
      refine hlead ?_
      rw [lossy]
      exact (mem_cons.mp h).resolve_left hreplacement

/-- **An ASCII character of a text comes from its byte.** -/
theorem mem_of_mem_lossy (hpos : 0 < c.toNat) (hc : c.toNat < 0x80) {l : List UInt8}
    (h : c ∈ lossy l) : ∃ b ∈ l, b.toNat = c.toNat := (mem_both hpos hc l).1 h

/-! ### Exact UTF-8 -/

def encode (l : List Char) : List UInt8 := l.flatMap String.utf8EncodeChar

/-- `String::from_utf8`. -/
def decode (b : List UInt8) : Option (List Char) := b.toByteArray.utf8Decode?.map Array.toList

theorem encode_append (l m : List Char) : encode (l ++ m) = encode l ++ encode m :=
  flatMap_append

/-- **A text before any bytes is decoded as it was.** -/
theorem decode_append (l : List Char) (b : List UInt8) :
    decode (encode l ++ b) = (decode b).map (l ++ ·) := by
  induction l with
  | nil => exact Option.map_id'.symm
  | cons c l ih =>
    have hcons : (encode (c :: l) ++ b).toByteArray
        = [c].utf8Encode ++ (encode l ++ b).toByteArray := by
      rw [encode, flatMap_cons, append_assoc, toByteArray_append, utf8Encode_singleton]
      rfl
    rw [decode, hcons, ByteArray.utf8Decode?_utf8Encode_singleton_append, Option.map_map]
    have hhead : (Array.toList ∘ fun a : Array Char => #[c] ++ a) = (fun m => c :: m) ∘ Array.toList := by
      funext a
      simp
    rw [hhead, ← Option.map_map]
    show ((decode (encode l ++ b)).map (c :: ·)) = _
    rw [ih, Option.map_map]
    rfl

theorem decode_encode (l : List Char) : decode (encode l) = some l := by
  rw [decode]
  have hbytes : (encode l).toByteArray = l.utf8Encode := rfl
  rw [hbytes, utf8Decode?_utf8Encode]
  rfl

variable {l : List Char} {b : List UInt8}

theorem encode_of_decode (h : decode b = some l) : encode l = b := by
  obtain ⟨a, ha, rfl⟩ := Option.map_eq_some_iff.mp h
  have hsome : b.toByteArray.utf8Decode?.isSome := by rw [ha]; rfl
  have hget : b.toByteArray.utf8Decode?.get hsome = a := Option.get_of_eq_some hsome ha
  have hback := ByteArray.utf8Encode_get_utf8Decode? (b := b.toByteArray) (h := hsome)
  rw [hget] at hback
  exact toByteArray_inj.mp hback

/-! ### Texts through the lossy reading -/

theorem lossyIn_last {b : UInt8} (rest : List UInt8) (hlo : p.lo ≤ b.toNat)
    (hhi : b.toNat ≤ p.hi) (howed : p.owed = 0) :
    lossyIn p (b :: rest) = Char.ofNat (p.bits * 0x40 + (b.toNat - 0x80)) :: lossy rest := by
  rw [lossyIn, if_pos ⟨hlo, hhi⟩, howed]

theorem lossyIn_next {b : UInt8} (rest : List UInt8) (hlo : p.lo ≤ b.toNat)
    (hhi : b.toNat ≤ p.hi) (howed : p.owed = n + 1) :
    lossyIn p (b :: rest)
      = lossyIn ⟨p.bits * 0x40 + (b.toNat - 0x80), 0x80, 0xbf, n⟩ rest := by
  rw [lossyIn, if_pos ⟨hlo, hhi⟩, howed]

theorem toNat_low (h : n < 256) : (UInt8.ofNat n).toNat = n :=
  UInt8.toNat_ofNat_of_lt' h

theorem lead_char {v : Nat} (h : v ≤ 0x7f) : lead v = .char (Char.ofNat v) :=
  if_pos (by omega)

variable {q : Nat}

theorem lead_two (h : 2 ≤ q ∧ q < 0x20) : lead (q + 0xc0) = .sequence ⟨q, 0x80, 0xbf, 0⟩ := by
  rw [lead, if_neg (by omega), if_pos (by omega), Nat.add_sub_cancel]

theorem lead_three (h : q < 0x10) :
    lead (q + 0xe0) = .sequence ⟨q, if q = 0 then 0xa0 else 0x80, if q = 0xd then 0x9f else 0xbf, 1⟩ := by
  rw [lead, if_neg (by omega), if_neg (by omega)]
  by_cases h0 : q = 0
  · subst h0
    rfl
  · by_cases hd : q = 0xd
    · subst hd
      rfl
    · have he0 : ¬ q + 0xe0 = 0xe0 := by omega
      have hed : ¬ q + 0xe0 = 0xed := by omega
      have hrange : 0xe1 ≤ q + 0xe0 ∧ q + 0xe0 ≤ 0xef := by omega
      rw [if_neg he0, if_neg hed, if_pos hrange, if_neg h0, if_neg hd, Nat.add_sub_cancel]

theorem lead_four (h : q ≤ 4) :
    lead (q + 0xf0) = .sequence ⟨q, if q = 0 then 0x90 else 0x80, if q = 4 then 0x8f else 0xbf, 2⟩ := by
  match q, h with
  | 0, _ => rfl
  | 1, _ => rfl
  | 2, _ => rfl
  | 3, _ => rfl
  | 4, _ => rfl

theorem lossy_utf8EncodeChar (c : Char) (rest : List UInt8) :
    lossy (String.utf8EncodeChar c ++ rest) = c :: lossy rest := by
  have hvalid : c.val.toNat < 0xd800 ∨ 0xdfff < c.val.toNat ∧ c.val.toNat < 0x110000 := c.valid
  have hself : Char.ofNat c.val.toNat = c := Char.ofNat_toNat c
  rw [String.utf8EncodeChar]
  generalize c.val.toNat = v at hvalid hself ⊢
  split_ifs with h1 h2 h3
  · rw [cons_append, nil_append, lossy, toNat_low (by omega), lead_char h1, hself]
  · rw [cons_append, lossy, toNat_low (by omega), lead_two (by omega)]
    dsimp only
    rw [cons_append, nil_append, lossyIn_last _ (by rw [toNat_low (by omega)]; dsimp only; omega)
      (by rw [toNat_low (by omega)]; dsimp only; omega) rfl, toNat_low (by omega), ← hself]
    have hsum : v / 64 % 0x20 * 0x40 + (v % 0x40 + 0x80 - 0x80) = v := by omega
    exact congrArg (fun n => Char.ofNat n :: lossy rest) hsum
  · rw [cons_append, lossy, toNat_low (by omega), lead_three (by omega)]
    dsimp only
    rw [cons_append, lossyIn_next _ (n := 0) (by rw [toNat_low (by omega)]; dsimp only; split_ifs <;> omega)
      (by rw [toNat_low (by omega)]; dsimp only; split_ifs <;> omega) rfl, toNat_low (by omega)]
    rw [cons_append, nil_append, lossyIn_last _ (by rw [toNat_low (by omega)]; dsimp only; omega)
      (by rw [toNat_low (by omega)]; dsimp only; omega) rfl, toNat_low (by omega), ← hself]
    have hsum : (v / 4096 % 0x10 * 0x40 + (v / 64 % 0x40 + 0x80 - 0x80)) * 0x40
        + (v % 0x40 + 0x80 - 0x80) = v := by omega
    exact congrArg (fun n => Char.ofNat n :: lossy rest) hsum
  · rw [cons_append, lossy, toNat_low (by omega), lead_four (by omega)]
    dsimp only
    rw [cons_append, lossyIn_next _ (n := 1) (by rw [toNat_low (by omega)]; dsimp only; split_ifs <;> omega)
      (by rw [toNat_low (by omega)]; dsimp only; split_ifs <;> omega) rfl, toNat_low (by omega)]
    rw [cons_append, lossyIn_next _ (n := 0) (by rw [toNat_low (by omega)]; dsimp only; omega)
      (by rw [toNat_low (by omega)]; dsimp only; omega) rfl, toNat_low (by omega)]
    rw [cons_append, nil_append, lossyIn_last _ (by rw [toNat_low (by omega)]; dsimp only; omega)
      (by rw [toNat_low (by omega)]; dsimp only; omega) rfl, toNat_low (by omega), ← hself]
    have hsum : ((v / 262144 % 0x08 * 0x40 + (v / 4096 % 0x40 + 0x80 - 0x80)) * 0x40
        + (v / 64 % 0x40 + 0x80 - 0x80)) * 0x40 + (v % 0x40 + 0x80 - 0x80) = v := by omega
    exact congrArg (fun n => Char.ofNat n :: lossy rest) hsum

/-- **A text is read back as it was.** -/
theorem lossy_encode (l : List Char) : lossy (encode l) = l := by
  induction l with
  | nil => rfl
  | cons c l ih =>
    rw [encode, flatMap_cons, lossy_utf8EncodeChar]
    exact congrArg (c :: ·) ih

theorem lossy_ended (raw rest : List UInt8) :
    lossy (raw ++ 0x0A :: rest) = lossy raw ++ '\n' :: lossy rest :=
  lossy_append_ascii (by decide) raw rest

theorem newline_not_mem_lossy {raw : List UInt8} (h : (0x0A : UInt8) ∉ raw) : '\n' ∉ lossy raw := by
  intro hmem
  obtain ⟨b, hb, hval⟩ := mem_of_mem_lossy (by decide) (by decide) hmem
  have hnl : b = 0x0A := UInt8.toNat_inj.mp hval
  exact h (hnl ▸ hb)

variable {text : List Char}

theorem ofNat_mem_of_mem_encode (ha : a.toNat < 0x80)
    (h : a ∈ encode text) : Char.ofNat a.toNat ∈ text := by
  obtain ⟨front, rest, hsplit⟩ := append_of_mem h
  have hread := lossy_encode text
  rw [hsplit, lossy_append_ascii ha] at hread
  exact hread ▸ mem_append_right _ mem_cons_self

theorem newline_not_mem_encode (h : '\n' ∉ text) : (0x0A : UInt8) ∉ encode text :=
  fun hmem => h (ofNat_mem_of_mem_encode (by decide) hmem)

theorem size_eq_one_iff : c.utf8Size = 1 ↔ c.toNat < 0x80 := by
  rw [Char.utf8Size_eq_one_iff, UInt32.le_iff_toNat_le]
  exact Nat.lt_succ_iff.symm

theorem ascii_of_mem_encode (h : ∀ c ∈ text, c.toNat < 0x80)
    (ha : a ∈ encode text) : a.toNat < 0x80 := by
  obtain ⟨c, hc, ha⟩ := mem_flatMap.mp ha
  rw [String.utf8EncodeChar_eq_singleton (size_eq_one_iff.mpr (h c hc)), mem_singleton] at ha
  rw [ha]
  have hval : c.val.toUInt8.toNat = c.toNat % 256 := rfl
  rw [hval]
  exact Nat.lt_of_le_of_lt (Nat.mod_le _ _) (h c hc)

/-- **A text before any bytes is read as it was.** -/
theorem lossy_encode_append (l : List Char) (b : List UInt8) : lossy (encode l ++ b) = l ++ lossy b := by
  induction l with
  | nil => rfl
  | cons c l ih =>
    rw [encode, flatMap_cons, append_assoc, lossy_utf8EncodeChar]
    exact congrArg (c :: ·) ih

/-! ### Where a text can be cut -/

def Continues (b : UInt8) : Prop := 0x80 ≤ b.toNat ∧ b.toNat < 0xc0

theorem utf8EncodeChar_bytes (c : Char) : ∃ b bs, String.utf8EncodeChar c = b :: bs ∧
    ¬ Continues b ∧ ∀ b' ∈ bs, Continues b' := by
  have hvalid : c.val.toNat < 0xd800 ∨ 0xdfff < c.val.toNat ∧ c.val.toNat < 0x110000 := c.valid
  have hlow : ∀ n, Continues (UInt8.ofNat (n % 0x40 + 0x80)) := by
    intro n
    rw [Continues, toNat_low (by omega)]
    omega
  rw [String.utf8EncodeChar]
  generalize c.val.toNat = v at hvalid ⊢
  split_ifs with h1 h2 h3
  · refine ⟨_, _, rfl, ?_, fun b' hb' => by cases hb'⟩
    rw [Continues, toNat_low (by omega)]
    omega
  · refine ⟨_, _, rfl, ?_, fun b' hb' => ?_⟩
    · rw [Continues, toNat_low (by omega)]
      omega
    · rw [mem_singleton.mp hb']
      exact hlow v
  · refine ⟨_, _, rfl, ?_, fun b' hb' => ?_⟩
    · rw [Continues, toNat_low (by omega)]
      omega
    · simp only [mem_cons, not_mem_nil, or_false] at hb'
      rcases hb' with rfl | rfl
      · exact hlow (v / 64)
      · exact hlow v
  · refine ⟨_, _, rfl, ?_, fun b' hb' => ?_⟩
    · rw [Continues, toNat_low (by omega)]
      omega
    · simp only [mem_cons, not_mem_nil, or_false] at hb'
      rcases hb' with rfl | rfl | rfl
      · exact hlow (v / 4096)
      · exact hlow (v / 64)
      · exact hlow v

theorem exists_encode_of_append {b : UInt8} {rest : List UInt8} (hb : ¬ Continues b) :
    ∀ {t : List Char} {l : List UInt8}, encode t = l ++ b :: rest →
      ∃ s m, encode s = l ∧ t = s ++ m := by
  intro t
  induction t with
  | nil =>
    intro l h
    exact absurd h.symm (by simp [encode])
  | cons c t ih =>
    intro l h
    cases l with
    | nil => exact ⟨[], c :: t, rfl, rfl⟩
    | cons a l =>
      obtain ⟨a', bs, hc, -, hbs⟩ := utf8EncodeChar_bytes c
      have hcons : encode (c :: t) = a' :: (bs ++ encode t) := by
        rw [encode, flatMap_cons, hc]
        rfl
      rw [hcons, cons_append] at h
      obtain ⟨rfl, htail⟩ := List.cons.inj h
      rcases append_eq_append_iff.mp htail with ⟨as, rfl, hrest⟩ | ⟨cs, hcut, hrest⟩
      · obtain ⟨s, m, hs, rfl⟩ := ih hrest
        refine ⟨c :: s, m, ?_, rfl⟩
        rw [encode, flatMap_cons, hc, cons_append]
        exact congrArg (fun x => a' :: (bs ++ x)) hs
      · cases cs with
        | nil =>
          refine ⟨[c], t, ?_, rfl⟩
          rw [encode, flatMap_singleton, hc, hcut, append_nil]
        | cons b' cs =>
          -- the byte would go on the character
          obtain ⟨rfl, -⟩ := List.cons.inj hrest
          exact absurd (hbs b (hcut ▸ mem_append_right l mem_cons_self)) hb

theorem prefix_of_encode {m l : List Char} (h : encode m <+: encode l) : m <+: l := by
  obtain ⟨rest, hrest⟩ := h
  have hdecode := decode_append m rest
  rw [hrest, decode_encode] at hdecode
  obtain ⟨s, -, hs⟩ := Option.map_eq_some_iff.mp hdecode.symm
  exact ⟨s, hs⟩

/-- **Where the bytes of a text are in those of another, the text is in the other.** -/
theorem exists_split_of_encode {t o : List Char} {b a : List UInt8} (ho : o ≠ [])
    (h : encode t = b ++ encode o ++ a) :
    ∃ s m, encode s = b ∧ encode m = a ∧ t = s ++ o ++ m := by
  obtain ⟨c, o', rfl⟩ := exists_cons_of_ne_nil ho
  obtain ⟨b₀, bs, hc, hfirst, -⟩ := utf8EncodeChar_bytes c
  have hbytes : encode (c :: o') = b₀ :: (bs ++ encode o') := by
    rw [encode, flatMap_cons, hc]
    rfl
  have hcut : encode t = b ++ b₀ :: (bs ++ encode o' ++ a) := by
    rw [h, hbytes, append_assoc]
    rfl
  obtain ⟨s, m, rfl, rfl⟩ := exists_encode_of_append hfirst hcut
  rw [encode_append, append_assoc] at h
  have hm : encode m = encode (c :: o') ++ a := append_cancel_left h
  obtain ⟨m, rfl⟩ := prefix_of_encode ⟨a, hm.symm⟩
  rw [encode_append] at hm
  exact ⟨s, m, rfl, append_cancel_left hm, (append_assoc s _ m).symm⟩

/-- **What lies behind a number of bytes is a text exactly if the text can be cut there.** -/
theorem decode_drop_iff {t r : List Char} (hn : n ≤ (encode t).length) :
    decode ((encode t).drop n) = some r ↔ ∃ s, t = s ++ r ∧ (encode s).length = n := by
  constructor
  · intro h
    have hcut : encode t = (encode t).take n ++ encode r := by
      rw [encode_of_decode h, take_append_drop]
    cases r with
    | nil =>
      refine ⟨t, (append_nil t).symm, ?_⟩
      have hlen := congrArg List.length (encode_of_decode h)
      rw [length_drop] at hlen
      exact Nat.le_antisymm (Nat.sub_eq_zero_iff_le.mp hlen.symm) hn
    | cons c r =>
      obtain ⟨s, m, hs, hm, rfl⟩ := exists_split_of_encode (cons_ne_nil c r)
        (hcut.trans (append_nil _).symm)
      have hnil : m = [] := Option.some.inj ((decode_encode m).symm.trans (hm ▸ decode_encode []))
      refine ⟨s, by rw [hnil, append_nil], ?_⟩
      rw [hs, length_take, Nat.min_eq_left hn]
  · rintro ⟨s, rfl, hs⟩
    rw [encode_append, ← hs, drop_left, decode_encode]

variable {t : List Char}

/-- **Bytes with the beginning of a text after them are two texts.** -/
theorem decode_append_take (h : decode (b ++ (encode l).take n) = some t) :
    ∃ s m, decode b = some s ∧ m <+: l ∧ encode m = (encode l).take n ∧ t = s ++ m := by
  have henc := encode_of_decode h
  cases hcut : (encode l).take n with
  | nil =>
    rw [hcut, append_nil] at h
    exact ⟨t, [], h, nil_prefix, rfl, (append_nil t).symm⟩
  | cons a rest =>
    have hfirst : ¬ Continues a := by
      cases l with
      | nil =>
        rw [show encode [] = [] from rfl, take_nil] at hcut
        cases hcut
      | cons c l =>
        obtain ⟨b', bs, hc, hb', -⟩ := utf8EncodeChar_bytes c
        have hhead := congrArg List.head? hcut
        rw [encode, flatMap_cons, hc] at hhead
        cases n with
        | zero => cases hhead
        | succ n => exact Option.some.inj hhead ▸ hb'
    rw [hcut] at henc
    obtain ⟨s, m, rfl, rfl⟩ := exists_encode_of_append hfirst henc
    rw [encode_append] at henc
    have hm : encode m = a :: rest := append_cancel_left henc
    refine ⟨s, m, decode_encode s, prefix_of_encode ?_, hm, rfl⟩
    rw [hm, ← hcut]
    exact take_prefix n _

end Modbit.Lib.Utf8
