import Modbit.Lib.Utf8

/-!
# What the lossy reading changes

Bytes that are UTF-8 are encoded again as they were.  In all others at least one part of a
sequence has become a replacement character, whose three bytes weigh more than the part did: a
byte counts two, and one that begins a sequence of four only one (`heavier_both`).  So the text
of a byte string has the same bytes, in whatever order, only if the byte string is UTF-8
(`encode_lossy_of_perm`).
-/

namespace Modbit.Lib.Utf8

open List

/-! ### The weight of bytes -/

def weight (b : UInt8) : Nat := if b.toNat < 0xf0 then 2 else 1

def mass (l : List UInt8) : Nat := (l.map weight).sum

@[simp] theorem mass_nil : mass [] = 0 := rfl

@[simp] theorem mass_cons (b : UInt8) (l : List UInt8) : mass (b :: l) = weight b + mass l := rfl

theorem mass_append (l m : List UInt8) : mass (l ++ m) = mass l + mass m := by
  rw [mass, map_append, sum_append]
  rfl

theorem mass_perm {l m : List UInt8} (h : l.Perm m) : mass l = mass m := (h.map weight).sum_nat

theorem weight_le (b : UInt8) : weight b ≤ 2 := by
  rw [weight]
  split_ifs
  · exact Nat.le_refl 2
  · exact Nat.le_succ 1

theorem mass_replacement : mass (String.utf8EncodeChar replacement) = 6 := by decide +kernel

/-- The second bytes are the first, or heavier. -/
def Heavier (l m : List UInt8) : Prop := m = l ∨ mass l < mass m

theorem Heavier.append {l m l' m' : List UInt8} (h : Heavier l m) (h' : Heavier l' m') :
    Heavier (l ++ l') (m ++ m') := by
  rcases h with rfl | h
  · rcases h' with rfl | h'
    · exact Or.inl rfl
    · refine Or.inr ?_
      rw [mass_append, mass_append]
      omega
  · refine Or.inr ?_
    have hle : mass l' ≤ mass m' := by
      rcases h' with rfl | h'
      · exact Nat.le_refl _
      · exact Nat.le_of_lt h'
    rw [mass_append, mass_append]
    omega

/-! ### The bytes of a sequence under way -/

inductive Reads : Pending → List UInt8 → Prop
  | first {b : UInt8} {p : Pending} : lead b.toNat = .sequence p → Reads p [b]
  | next {p : Pending} {s : List UInt8} {b : UInt8} {n : Nat} : Reads p s → p.owed = n + 1 →
      p.lo ≤ b.toNat → b.toNat ≤ p.hi →
      Reads ⟨p.bits * 0x40 + (b.toNat - 0x80), 0x80, 0xbf, n⟩ (s ++ [b])

variable {b : Nat} {p : Pending}

theorem lead_hi (h : lead b = .sequence p) : p.hi ≤ 0xbf := by
  rcases lead_sequence h with ⟨-, -, rfl⟩ | ⟨-, -, rfl⟩ | ⟨-, -, rfl⟩
  · exact Nat.le_refl _
  all_goals
    dsimp only
    split_ifs <;> omega

variable {s : List UInt8}

theorem Reads.hi (h : Reads p s) : p.hi ≤ 0xbf := by
  cases h with
  | first h => exact lead_hi h
  | next => exact Nat.le_refl _

theorem lead_weight {b : UInt8} (h : lead b.toNat = .sequence p) : weight b + 2 * p.owed ≤ 5 := by
  rw [weight]
  rcases lead_sequence h with ⟨-, -, rfl⟩ | ⟨-, -, rfl⟩ | ⟨hlo, -, rfl⟩
  · split_ifs <;> dsimp only <;> omega
  · split_ifs <;> dsimp only <;> omega
  · rw [if_neg (Nat.not_lt.mpr hlo)]
    exact Nat.le_refl 5

theorem Reads.mass_le (h : Reads p s) : mass s + 2 * p.owed ≤ 5 := by
  induction h with
  | first h =>
    rw [mass_cons, mass_nil]
    exact lead_weight h
  | @next p s b n _ howed _ _ ih =>
    have hb := weight_le b
    rw [mass_append, mass_cons, mass_nil]
    dsimp only
    omega

theorem byte_eq {n : Nat} {b : UInt8} (h : n = b.toNat) : UInt8.ofNat n = b := by
  rw [h]
  exact UInt8.ofNat_toNat

theorem lead_owed (h : lead b = .sequence p) : p.owed ≤ 2 := by
  rcases lead_sequence h with ⟨-, -, rfl⟩ | ⟨-, -, rfl⟩ | ⟨-, -, rfl⟩
  · exact Nat.zero_le _
  · exact Nat.le_succ 1
  · exact Nat.le_refl 2

theorem Reads.length_pos (h : Reads p s) : 0 < s.length := by
  cases h with
  | first => exact Nat.one_pos
  | next =>
    rw [length_append]
    exact Nat.succ_pos _

theorem Reads.length_le (h : Reads p s) : s.length + p.owed ≤ 3 := by
  induction h with
  | first h =>
    have := lead_owed h
    rw [length_singleton]
    omega
  | next _ howed _ _ ih =>
    rw [length_append, length_singleton]
    dsimp only
    omega

theorem lead_one (h : lead b = .sequence p) (howed : p.owed = 0) :
    0xc2 ≤ b ∧ b ≤ 0xdf ∧ p.bits = b - 0xc0 := by
  rcases lead_sequence h with ⟨hlo, hhi, rfl⟩ | ⟨-, -, rfl⟩ | ⟨-, -, rfl⟩
  · exact ⟨hlo, hhi, rfl⟩
  · cases howed
  · cases howed

theorem lead_two_more (h : lead b = .sequence p) (howed : p.owed = 1) :
    0xe0 ≤ b ∧ b ≤ 0xef ∧ p.bits = b - 0xe0 ∧ 0x80 ≤ p.lo ∧ (b = 0xe0 → 0xa0 ≤ p.lo) ∧
      (b = 0xed → p.hi ≤ 0x9f) := by
  rcases lead_sequence h with ⟨-, -, rfl⟩ | ⟨hlo, hhi, rfl⟩ | ⟨-, -, rfl⟩
  · cases howed
  · refine ⟨hlo, hhi, rfl, ?_, fun hb => Nat.le_of_eq (if_pos hb).symm,
      fun hb => Nat.le_of_eq (if_pos hb)⟩
    dsimp only
    split_ifs <;> omega
  · cases howed

theorem lead_three_more (h : lead b = .sequence p) (howed : p.owed = 2) :
    0xf0 ≤ b ∧ b ≤ 0xf4 ∧ p.bits = b - 0xf0 ∧ 0x80 ≤ p.lo ∧ (b = 0xf0 → 0x90 ≤ p.lo) ∧
      (b = 0xf4 → p.hi ≤ 0x8f) := by
  rcases lead_sequence h with ⟨-, -, rfl⟩ | ⟨-, -, rfl⟩ | ⟨hlo, hhi, rfl⟩
  · cases howed
  · cases howed
  · refine ⟨hlo, hhi, rfl, ?_, fun hb => Nat.le_of_eq (if_pos hb).symm,
      fun hb => Nat.le_of_eq (if_pos hb)⟩
    dsimp only
    split_ifs <;> omega

theorem val_ofNat {v : Nat} (h : v.isValidChar) : (Char.ofNat v).val.toNat = v :=
  (toNat_ofNat v).trans (if_pos h)

/-- **A sequence that is complete is its character's bytes.** -/
theorem Reads.complete {b : UInt8} (h : Reads p s)
    (howed : p.owed = 0) (hlo : p.lo ≤ b.toNat) (hhi : b.toNat ≤ p.hi) :
    String.utf8EncodeChar (Char.ofNat (p.bits * 0x40 + (b.toNat - 0x80))) = s ++ [b] := by
  have htop := h.hi
  cases h with
  | @first b₀ p h =>
    obtain ⟨hge, hle, hbits⟩ := lead_one h howed
    have hlow := (lead_wide h).1
    rw [hbits]
    have hvalid : Nat.isValidChar ((b₀.toNat - 0xc0) * 0x40 + (b.toNat - 0x80)) := Or.inl (by omega)
    rw [String.utf8EncodeChar, val_ofNat hvalid, if_neg (by omega), if_pos (by omega)]
    rw [byte_eq (b := b₀) (by omega), byte_eq (b := b) (by omega)]
    rfl
  | @next q s b₁ n h hnext hlo₁ hhi₁ =>
    dsimp only at howed hlo hhi ⊢
    subst howed
    have htop₁ := h.hi
    cases h with
    | @first b₀ q h =>
      obtain ⟨hge, hle, hbits, hlow, he0, hed⟩ := lead_two_more h hnext
      rw [hbits]
      have hvalid : Nat.isValidChar
          (((b₀.toNat - 0xe0) * 0x40 + (b₁.toNat - 0x80)) * 0x40 + (b.toNat - 0x80)) := by
        by_cases hlast : b₀.toNat = 0xed
        · exact Or.inl (by omega)
        · by_cases hless : b₀.toNat < 0xed
          · exact Or.inl (by omega)
          · exact Or.inr ⟨by omega, by omega⟩
      rw [String.utf8EncodeChar, val_ofNat hvalid, if_neg (by omega), if_neg (by omega),
        if_pos (by omega)]
      rw [byte_eq (b := b₀) (by omega), byte_eq (b := b₁) (by omega), byte_eq (b := b) (by omega)]
      rfl
    | @next q s b₂ n h hnext₂ hlo₂ hhi₂ =>
      dsimp only at hnext hlo₁ hhi₁ htop₁ ⊢
      subst hnext
      have htop₂ := h.hi
      cases h with
      | @first b₀ q h =>
        obtain ⟨hge, hle, hbits, hlow, hf0, hf4⟩ := lead_three_more h hnext₂
        rw [hbits]
        have hvalid : Nat.isValidChar ((((b₀.toNat - 0xf0) * 0x40 + (b₂.toNat - 0x80)) * 0x40
            + (b₁.toNat - 0x80)) * 0x40 + (b.toNat - 0x80)) := Or.inr ⟨by omega, by omega⟩
        rw [String.utf8EncodeChar, val_ofNat hvalid, if_neg (by omega), if_neg (by omega),
          if_neg (by omega)]
        rw [byte_eq (b := b₀) (by omega), byte_eq (b := b₂) (by omega),
          byte_eq (b := b₁) (by omega), byte_eq (b := b) (by omega)]
        rfl
      | next h hnext₃ =>
        -- after its second byte a sequence owes no three
        have hlength := h.length_le
        have hpos := h.length_pos
        dsimp only at hnext₂
        omega

/-! ### The reading and the bytes again -/

theorem heavier_cut (h : Reads p s) : Heavier s (String.utf8EncodeChar replacement) := by
  refine Or.inr ?_
  have := h.mass_le
  rw [mass_replacement]
  omega

theorem heavier_invalid (b : UInt8) : Heavier [b] (String.utf8EncodeChar replacement) := by
  refine Or.inr ?_
  have := weight_le b
  rw [mass_replacement, mass_cons, mass_nil]
  omega

theorem encode_cons (c : Char) (l : List Char) :
    encode (c :: l) = String.utf8EncodeChar c ++ encode l := flatMap_cons

theorem lead_eq_char {b : UInt8} {c : Char} (h : lead b.toNat = .char c) :
    String.utf8EncodeChar c = [b] := by
  obtain ⟨hlow, rfl⟩ := char_of_lead h
  have hvalid : b.toNat.isValidChar := Or.inl (by omega)
  rw [String.utf8EncodeChar, val_ofNat hvalid, if_pos (by omega), byte_eq rfl]

theorem heavier_both (l : List UInt8) :
    Heavier l (encode (lossy l)) ∧
      ∀ p s, Reads p s → Heavier (s ++ l) (encode (lossyIn p l)) := by
  induction l with
  | nil =>
    refine ⟨Or.inl rfl, fun p s h => ?_⟩
    rw [lossyIn, encode_cons]
    exact (heavier_cut h).append (Or.inl rfl)
  | cons b l ih =>
    obtain ⟨hout, hin⟩ := ih
    have hlead : Heavier (b :: l) (encode (lossy (b :: l))) := by
      rw [lossy]
      cases hb : lead b.toNat with
      | char c =>
        rw [encode_cons, lead_eq_char hb]
        exact Heavier.append (Or.inl rfl) hout
      | sequence p => exact hin p [b] (.first hb)
      | invalid =>
        rw [encode_cons]
        exact (heavier_invalid b).append hout
    refine ⟨hlead, fun p s h => ?_⟩
    rw [lossyIn]
    split
    · next hb =>
      rw [append_cons s b l]
      split
      · next howed =>
        rw [encode_cons, h.complete howed hb.1 hb.2]
        exact Heavier.append (Or.inl rfl) hout
      · next n howed => exact hin _ _ (.next h howed hb.1 hb.2)
    · -- the byte is looked at again
      rw [encode_cons]
      rw [lossy] at hlead
      exact (heavier_cut h).append hlead

variable {l : List UInt8}

/-- **Bytes whose text has the same bytes again, in whatever order, are UTF-8.** -/
theorem encode_lossy_of_perm (h : (encode (lossy l)).Perm l) : encode (lossy l) = l := by
  rcases (heavier_both l).1 with heq | hlt
  · exact heq
  · exact absurd (mass_perm h) (Nat.ne_of_gt hlt)

theorem encode_lossy_iff : encode (lossy l) = l ↔ ∃ t, encode t = l := by
  constructor
  · exact fun h => ⟨lossy l, h⟩
  · rintro ⟨t, rfl⟩
    rw [lossy_encode]

end Modbit.Lib.Utf8
