import Modbit.Lib.Utf8
import Mathlib.Algebra.BigOperators.Group.List.Basic
import Mathlib.Algebra.Order.BigOperators.Group.List

/-!
# The protobuf wire format

A message is a sequence of fields, each a key, the field number and the wire type in one
varint, and a value.  `render` writes fields and `parse` reads them; a varint has at most
ten bytes and fits into 64 bits, a field number is positive and has 29 bits, and what is
inside a group is passed over.

`parse_render` is the round trip.  `length_render_le` says that no bytes are shorter than
those that `render` writes for the fields that are read from them, and `sum_weight_le` how
much of them the fields of single numbers can take.
-/

namespace Modbit.Lib.Protobuf

open List

/-! ### Varints -/

def varintLoop : Nat → Nat → List UInt8
  | 0, v => [UInt8.ofNat v]
  | fuel + 1, v =>
    if v < 128 then [UInt8.ofNat v] else UInt8.ofNat (v % 128 + 128) :: varintLoop fuel (v / 128)

/-- A number in bytes of seven bits, lowest first; all but the last have the high bit. -/
def varint (v : Nat) : List UInt8 := varintLoop v v

/-- A number of at most so many bytes, and the bytes after it. -/
def takeVarint : Nat → List UInt8 → Option (Nat × List UInt8)
  | 0, _ => none
  | _ + 1, [] => none
  | k + 1, b :: rest =>
    if b.toNat < 128 then some (b.toNat, rest)
    else (takeVarint k rest).map (fun r => (b.toNat - 128 + 128 * r.1, r.2))

theorem varintLoop_congr {f g v : Nat} (hf : v ≤ f) (hg : v ≤ g) :
    varintLoop f v = varintLoop g v := by
  induction f generalizing g v with
  | zero =>
    obtain rfl : v = 0 := Nat.le_zero.mp hf
    cases g with
    | zero => rfl
    | succ g => rfl
  | succ f ih =>
    cases g with
    | zero =>
      obtain rfl : v = 0 := Nat.le_zero.mp hg
      rfl
    | succ g =>
      rw [varintLoop, varintLoop]
      split_ifs with hv
      · rfl
      · rw [ih (g := g) (by omega) (by omega)]

theorem varint_eq (v : Nat) :
    varint v = if v < 128 then [UInt8.ofNat v]
      else UInt8.ofNat (v % 128 + 128) :: varint (v / 128) := by
  rw [varint]
  cases v with
  | zero => rfl
  | succ v =>
    rw [varintLoop, varint]
    split_ifs with hv
    · rfl
    · rw [varintLoop_congr (g := (v + 1) / 128) (by omega) (Nat.le_refl _)]

theorem toNat_byte {n : Nat} (h : n < 256) : (UInt8.ofNat n).toNat = n := UInt8.toNat_ofNat_of_lt' h

theorem length_varint_pos (v : Nat) : 0 < (varint v).length := by
  rw [varint_eq]
  split_ifs
  · exact Nat.one_pos
  · exact Nat.succ_pos _

theorem length_varint_mono {v w : Nat} (h : v ≤ w) : (varint v).length ≤ (varint w).length := by
  induction w using Nat.strong_induction_on generalizing v with
  | _ w ih =>
    rw [varint_eq v, varint_eq w]
    by_cases hv : v < 128
    · rw [if_pos hv, ← varint_eq w]
      exact length_varint_pos w
    · rw [if_neg hv, if_neg (by omega), length_cons, length_cons]
      exact Nat.succ_le_succ (ih _ (by omega) (Nat.div_le_div_right h))

variable {v k : Nat}

theorem length_varint_le (h : v < 128 ^ (k + 1)) : (varint v).length ≤ k + 1 := by
  induction k generalizing v with
  | zero =>
    rw [varint_eq, if_pos (by omega)]
    exact Nat.le_refl 1
  | succ k ih =>
    rw [varint_eq]
    split_ifs
    · exact Nat.succ_le_succ (Nat.zero_le _)
    · refine Nat.succ_le_succ (ih ?_)
      rw [Nat.div_lt_iff_lt_mul (by decide), ← Nat.pow_succ]
      exact h

/-- **A number is read back, and the bytes after it are left.** -/
theorem takeVarint_varint (h : (varint v).length ≤ k) (rest : List UInt8) :
    takeVarint k (varint v ++ rest) = some (v, rest) := by
  induction v using Nat.strong_induction_on generalizing k with
  | _ v ih =>
    rw [varint_eq] at h ⊢
    obtain ⟨k, rfl⟩ : ∃ k', k = k' + 1 := by
      refine ⟨k - 1, ?_⟩
      split_ifs at h <;> rw [length_cons] at h <;> omega
    split_ifs at h ⊢ with hv
    · rw [cons_append, nil_append, takeVarint, toNat_byte (by omega), if_pos hv]
    · rw [length_cons] at h
      rw [cons_append, takeVarint, toNat_byte (by omega), if_neg (by omega),
        ih (v / 128) (by omega) (by omega), Option.map_some]
      congr 2
      omega

theorem eq_of_takeVarint {k v w : Nat} {rest r : List UInt8}
    (h : takeVarint k (varint v ++ rest) = some (w, r)) : w = v ∧ r = rest := by
  induction v using Nat.strong_induction_on generalizing k w with
  | _ v ih =>
    cases k with
    | zero =>
      rw [takeVarint] at h
      cases h
    | succ k =>
      rw [varint_eq] at h
      split_ifs at h with hv
      · rw [cons_append, nil_append, takeVarint, toNat_byte (by omega), if_pos hv] at h
        obtain ⟨rfl, rfl⟩ := Prod.mk.inj (Option.some.inj h)
        exact ⟨rfl, rfl⟩
      · rw [cons_append, takeVarint, toNat_byte (by omega), if_neg (by omega)] at h
        obtain ⟨⟨m, r'⟩, hm, heq⟩ := Option.map_eq_some_iff.mp h
        obtain ⟨rfl, rfl⟩ := Prod.mk.inj heq
        obtain ⟨rfl, rfl⟩ := ih (v / 128) (by omega) hm
        exact ⟨by dsimp only; omega, rfl⟩

/-- **No bytes of a number are fewer than its own.** -/
theorem length_of_takeVarint {bytes rest : List UInt8} (h : takeVarint k bytes = some (v, rest)) :
    (varint v).length + rest.length ≤ bytes.length ∧ rest <:+ bytes := by
  induction k generalizing v bytes rest with
  | zero => cases h
  | succ k ih =>
    cases bytes with
    | nil => cases h
    | cons b tail =>
      rw [takeVarint] at h
      split_ifs at h with hb
      · obtain ⟨rfl, rfl⟩ := Prod.mk.inj (Option.some.inj h)
        rw [varint_eq, if_pos hb, length_singleton, length_cons]
        exact ⟨by omega, suffix_cons _ _⟩
      · obtain ⟨⟨m, r⟩, hm, heq⟩ := Option.map_eq_some_iff.mp h
        obtain ⟨rfl, rfl⟩ := Prod.mk.inj heq
        obtain ⟨hlen, hsuffix⟩ := ih hm
        refine ⟨?_, hsuffix.trans (suffix_cons _ _)⟩
        rw [varint_eq, length_cons]
        split_ifs with hv
        · rw [length_singleton]
          dsimp only
          omega
        · have hdiv : (b.toNat - 128 + 128 * m) / 128 = m := by
            have := b.toNat_lt
            omega
          rw [hdiv, length_cons]
          dsimp only
          omega

/-! ### Fields -/

inductive Wire where
  | varint (v : Nat)
  | fixed64 (bytes : List UInt8)
  | len (bytes : List UInt8)
  | fixed32 (bytes : List UInt8)
  deriving DecidableEq

structure Field where
  number : Nat
  value : Wire
  deriving DecidableEq

def Wire.type : Wire → Nat
  | .varint _ => 0
  | .fixed64 _ => 1
  | .len _ => 2
  | .fixed32 _ => 5

def Wire.bytes : Wire → List UInt8
  | .varint v => Protobuf.varint v
  | .fixed64 b => b
  | .len b => Protobuf.varint b.length ++ b
  | .fixed32 b => b

def renderField (f : Field) : List UInt8 := varint (8 * f.number + f.value.type) ++ f.value.bytes

def render (fs : List Field) : List UInt8 := fs.flatMap renderField

def readVarint (bytes : List UInt8) : Option (Nat × List UInt8) :=
  (takeVarint 10 bytes).filter (fun r => r.1 < 2 ^ 64)

def split (n : Nat) (bytes : List UInt8) : Option (List UInt8 × List UInt8) :=
  if n ≤ bytes.length then some (bytes.take n, bytes.drop n) else none

def readValue (type : Nat) (bytes : List UInt8) : Option (Wire × List UInt8) :=
  match type with
  | 0 => (readVarint bytes).map (fun r => (.varint r.1, r.2))
  | 1 => (split 8 bytes).map (fun r => (.fixed64 r.1, r.2))
  | 2 => (readVarint bytes).bind (fun r => (split r.1 r.2).map (fun r => (.len r.1, r.2)))
  | 5 => (split 4 bytes).map (fun r => (.fixed32 r.1, r.2))
  | _ => none

/-- The fields of a message, inside the groups that are open. -/
def parseIn : Nat → List Nat → List UInt8 → Option (List Field)
  | _, [], [] => some []
  | _, _ :: _, [] => none
  | 0, _, _ :: _ => none
  | fuel + 1, groups, b :: bytes =>
    match readVarint (b :: bytes) with
    | none => none
    | some (key, rest) =>
      let number := key / 8
      let type := key % 8
      if number = 0 ∨ 2 ^ 29 ≤ number then none
      else if type = 3 then parseIn fuel (number :: groups) rest
      else if type = 4 then
        match groups with
        | [] => none
        | g :: groups => if g = number then parseIn fuel groups rest else none
      else
        match readValue type rest with
        | none => none
        | some (value, rest) =>
          (parseIn fuel groups rest).map (fun fs =>
            if groups = [] then ⟨number, value⟩ :: fs else fs)

def parse (bytes : List UInt8) : Option (List Field) := parseIn bytes.length [] bytes

structure Field.Valid (f : Field) : Prop where
  number : 0 < f.number ∧ f.number < 2 ^ 29
  value : match f.value with
    | .varint v => v < 2 ^ 64
    | .fixed64 b => b.length = 8
    | .len b => b.length < 2 ^ 64
    | .fixed32 b => b.length = 4

theorem readVarint_varint (h : v < 2 ^ 64) (rest : List UInt8) :
    readVarint (varint v ++ rest) = some (v, rest) := by
  have hlen : (varint v).length ≤ 10 := length_varint_le (k := 9) (by omega)
  rw [readVarint, takeVarint_varint hlen, Option.filter_some, if_pos (decide_eq_true h)]

theorem split_append (a b : List UInt8) : split a.length (a ++ b) = some (a, b) := by
  rw [split, if_pos (by rw [length_append]; omega), take_left, drop_left]

variable {f : Field}

theorem readValue_bytes (h : f.Valid) (rest : List UInt8) :
    readValue f.value.type (f.value.bytes ++ rest) = some (f.value, rest) := by
  have hvalue := h.value
  cases hv : f.value with
  | varint v =>
    rw [hv] at hvalue
    show (readVarint (varint v ++ rest)).map _ = _
    rw [readVarint_varint hvalue]
    rfl
  | fixed64 b =>
    rw [hv] at hvalue
    show (split 8 (b ++ rest)).map _ = _
    rw [← show b.length = 8 from hvalue, split_append]
    rfl
  | len b =>
    rw [hv] at hvalue
    show (readVarint (varint b.length ++ b ++ rest)).bind _ = _
    rw [append_assoc, readVarint_varint hvalue, Option.bind_some, split_append]
    rfl
  | fixed32 b =>
    rw [hv] at hvalue
    show (split 4 (b ++ rest)).map _ = _
    rw [← show b.length = 4 from hvalue, split_append]
    rfl

theorem type_cases (w : Wire) : w.type < 8 ∧ w.type ≠ 3 ∧ w.type ≠ 4 := by
  cases w with
  | varint v => simp [Wire.type]
  | fixed64 b => simp [Wire.type]
  | len b => simp [Wire.type]
  | fixed32 b => simp [Wire.type]

theorem length_renderField_pos (f : Field) : 0 < (renderField f).length := by
  have hpos := length_varint_pos (8 * f.number + f.value.type)
  rw [renderField, length_append]
  omega

theorem exists_cons_renderField (f : Field) (rest : List UInt8) :
    ∃ b tail, renderField f ++ rest = b :: tail :=
  exists_cons_of_ne_nil (append_ne_nil_of_left_ne_nil
    (ne_nil_of_length_pos (length_renderField_pos f)) rest)

theorem render_cons (f : Field) (fs : List Field) : render (f :: fs) = renderField f ++ render fs :=
  flatMap_cons

theorem length_le_render (fs : List Field) : fs.length ≤ (render fs).length := by
  induction fs with
  | nil => exact Nat.zero_le _
  | cons f fs ih =>
    have hone := length_renderField_pos f
    rw [render_cons, length_append, length_cons]
    omega

variable {fuel : Nat}

theorem parseIn_field (h : f.Valid) (rest : List UInt8) :
    parseIn (fuel + 1) [] (renderField f ++ rest)
      = (parseIn fuel [] rest).map (f :: ·) := by
  obtain ⟨htype, hstart, hend⟩ := type_cases f.value
  obtain ⟨hpos, hlt⟩ := h.number
  have hkey : readVarint (renderField f ++ rest)
      = some (8 * f.number + f.value.type, f.value.bytes ++ rest) := by
    rw [renderField, append_assoc]
    exact readVarint_varint (by omega) _
  have hdiv : (8 * f.number + f.value.type) / 8 = f.number := by omega
  have hmod : (8 * f.number + f.value.type) % 8 = f.value.type := by omega
  obtain ⟨b, tail, hcons⟩ := exists_cons_renderField f rest
  rw [hcons] at hkey ⊢
  rw [parseIn, hkey]
  dsimp only
  rw [hdiv, hmod, if_neg (by omega), if_neg hstart, if_neg hend, readValue_bytes h]
  rfl

variable {fs : List Field}

/-- **Fields are read back as they were written.** -/
theorem parse_render (h : ∀ f ∈ fs, f.Valid) : parse (render fs) = some fs := by
  have hfuel : ∀ {fs : List Field}, (∀ f ∈ fs, f.Valid) → ∀ fuel, fs.length ≤ fuel →
      parseIn fuel [] (render fs) = some fs := by
    intro fs
    induction fs with
    | nil =>
      intro _ fuel _
      cases fuel with
      | zero => rfl
      | succ fuel => rfl
    | cons f fs ih =>
      intro h fuel hle
      obtain ⟨fuel, rfl⟩ : ∃ k, fuel = k + 1 := ⟨fuel - 1, by rw [length_cons] at hle; omega⟩
      have hrest := ih (fun g hg => h g (mem_cons_of_mem _ hg)) fuel (by
        rw [length_cons] at hle
        omega)
      rw [render_cons, parseIn_field (h f mem_cons_self), hrest, Option.map_some]
  exact hfuel h _ (length_le_render fs)

/-! ### Sizes -/

theorem length_of_readVarint {bytes rest : List UInt8}
    (h : readVarint bytes = some (v, rest)) : (varint v).length + rest.length ≤ bytes.length :=
  (length_of_takeVarint (Option.filter_eq_some_iff.mp h).1).1

theorem length_of_split {n : Nat} {bytes a b : List UInt8} (h : split n bytes = some (a, b)) :
    a.length = n ∧ a.length + b.length = bytes.length := by
  rw [split] at h
  split_ifs at h with hle
  obtain ⟨rfl, rfl⟩ := Prod.mk.inj (Option.some.inj h)
  rw [length_take, length_drop]
  omega

theorem length_of_readValue {type : Nat} {bytes rest : List UInt8} {w : Wire}
    (h : readValue type bytes = some (w, rest)) :
    w.type = type ∧ w.bytes.length + rest.length ≤ bytes.length := by
  unfold readValue at h
  split at h
  · obtain ⟨⟨v, r⟩, hv, heq⟩ := Option.map_eq_some_iff.mp h
    obtain ⟨rfl, rfl⟩ := Prod.mk.inj heq
    exact ⟨rfl, length_of_readVarint hv⟩
  · obtain ⟨⟨a, r⟩, ha, heq⟩ := Option.map_eq_some_iff.mp h
    obtain ⟨rfl, rfl⟩ := Prod.mk.inj heq
    exact ⟨rfl, (length_of_split ha).2.le⟩
  · obtain ⟨⟨n, r⟩, hn, hrest⟩ := Option.bind_eq_some_iff.mp h
    obtain ⟨⟨a, r'⟩, ha, heq⟩ := Option.map_eq_some_iff.mp hrest
    obtain ⟨rfl, rfl⟩ := Prod.mk.inj heq
    obtain ⟨hlen, hsum⟩ := length_of_split ha
    have hle := length_of_readVarint hn
    refine ⟨rfl, ?_⟩
    show (varint a.length ++ a).length + r'.length ≤ _
    dsimp only at hlen hsum hle
    rw [length_append, hlen]
    omega
  · obtain ⟨⟨a, r⟩, ha, heq⟩ := Option.map_eq_some_iff.mp h
    obtain ⟨rfl, rfl⟩ := Prod.mk.inj heq
    exact ⟨rfl, (length_of_split ha).2.le⟩
  · cases h

variable {bytes : List UInt8}

theorem parseIn_eq_some {groups : List Nat} {b : UInt8}
    (h : parseIn (fuel + 1) groups (b :: bytes) = some fs) :
    ∃ key rest, readVarint (b :: bytes) = some (key, rest) ∧
      (((key % 8 = 3 ∨ key % 8 = 4) ∧ ∃ groups', parseIn fuel groups' rest = some fs) ∨
        ∃ value rest' fs', readValue (key % 8) rest = some (value, rest') ∧
          parseIn fuel groups rest' = some fs' ∧
          fs = if groups = [] then ⟨key / 8, value⟩ :: fs' else fs') := by
  rw [parseIn] at h
  split at h
  · cases h
  · next key rest hkey =>
    refine ⟨key, rest, hkey, ?_⟩
    by_cases hnum : key / 8 = 0 ∨ 2 ^ 29 ≤ key / 8
    · rw [if_pos hnum] at h
      cases h
    rw [if_neg hnum] at h
    by_cases hstart : key % 8 = 3
    · rw [if_pos hstart] at h
      exact Or.inl ⟨Or.inl hstart, _, h⟩
    rw [if_neg hstart] at h
    by_cases hend : key % 8 = 4
    · rw [if_pos hend] at h
      split at h
      · cases h
      · split_ifs at h
        exact Or.inl ⟨Or.inr hend, _, h⟩
    rw [if_neg hend] at h
    split at h
    · cases h
    · next value rest' hvalue =>
      obtain ⟨fs', hfs', rfl⟩ := Option.map_eq_some_iff.mp h
      exact Or.inr ⟨value, rest', fs', hvalue, hfs', rfl⟩

/-- **Fields are written in no more bytes than they were read from.** -/
theorem length_render_le_in {groups : List Nat}
    (h : parseIn fuel groups bytes = some fs) : (render fs).length ≤ bytes.length := by
  induction fuel generalizing groups bytes fs with
  | zero =>
    cases bytes with
    | nil =>
      cases groups with
      | nil =>
        rw [parseIn] at h
        rw [← Option.some.inj h]
        exact Nat.le_refl 0
      | cons g groups => cases h
    | cons b bytes =>
      rw [parseIn] at h
      cases h
  | succ fuel ih =>
    cases bytes with
    | nil =>
      cases groups with
      | nil =>
        rw [parseIn] at h
        rw [← Option.some.inj h]
        exact Nat.le_refl 0
      | cons g groups => cases h
    | cons b bytes =>
      obtain ⟨key, rest, hkey, ⟨-, groups', hin⟩ | ⟨value, rest', fs', hvalue, hfs', rfl⟩⟩ :=
        parseIn_eq_some h
      · have hkeyLen := length_of_readVarint hkey
        exact (ih hin).trans (by omega)
      · have hkeyLen := length_of_readVarint hkey
        obtain ⟨htype, hlen⟩ := length_of_readValue hvalue
        have hrest := ih hfs'
        split_ifs
        · have hkey' : 8 * (key / 8) + value.type = key := by
            rw [htype]
            exact Nat.div_add_mod key 8
          rw [render, flatMap_cons, ← render, length_append, renderField, length_append]
          dsimp only
          rw [hkey']
          omega
        · omega

theorem length_render_le (h : parse bytes = some fs) :
    (render fs).length ≤ bytes.length := length_render_le_in h

def weight (fs : List Field) (k : Nat) : Nat := (render (fs.filter (·.number = k))).length

theorem weight_cons (f : Field) (fs : List Field) (k : Nat) :
    weight (f :: fs) k = (if f.number = k then (renderField f).length else 0) + weight fs k := by
  rw [weight, filter_cons]
  by_cases hk : f.number = k
  · rw [if_pos (decide_eq_true hk), if_pos hk, render, flatMap_cons, length_append]
    rfl
  · rw [if_neg (by simpa using hk), if_neg hk, Nat.zero_add]
    rfl

theorem le_weight (h : f ∈ fs) : (renderField f).length ≤ weight fs f.number := by
  induction fs with
  | nil => cases h
  | cons g fs ih =>
    rw [weight_cons]
    rcases mem_cons.mp h with rfl | h
    · rw [if_pos rfl]
      exact Nat.le_add_right _ _
    · exact (ih h).trans (Nat.le_add_left _ _)

/-- **Fields of different numbers take different bytes.** -/
theorem sum_weight_le {ks : List Nat} (hks : ks.Nodup) (fs : List Field) :
    (ks.map (weight fs)).sum ≤ (render fs).length := by
  have hone : ∀ (ks : List Nat) (n c : Nat), ks.Nodup →
      (ks.map (fun k => if n = k then c else 0)).sum ≤ c := by
    intro ks n c hks
    induction ks with
    | nil => exact Nat.zero_le c
    | cons k ks ih =>
      obtain ⟨hk, hks⟩ := nodup_cons.mp hks
      rw [map_cons, sum_cons]
      by_cases hn : n = k
      · have hzero : (ks.map (fun k => if n = k then c else 0)).sum = 0 := by
          refine sum_eq_zero (fun x hx => ?_)
          obtain ⟨j, hj, rfl⟩ := mem_map.mp hx
          exact if_neg (fun hnj : n = j => hk (hn ▸ hnj ▸ hj))
        rw [if_pos hn, hzero, Nat.add_zero]
      · rw [if_neg hn, Nat.zero_add]
        exact ih hks
  induction fs with
  | nil =>
    have hzero : (ks.map (weight [])).sum = 0 := by
      refine sum_eq_zero (fun x hx => ?_)
      obtain ⟨j, -, rfl⟩ := mem_map.mp hx
      rfl
    rw [hzero]
    exact Nat.zero_le _
  | cons f fs ih =>
    have hsplit : (ks.map (weight (f :: fs))).sum
        = (ks.map (fun k => if f.number = k then (renderField f).length else 0)).sum
          + (ks.map (weight fs)).sum := by
      rw [← sum_map_add]
      exact congrArg List.sum (map_congr_left (fun k _ => weight_cons f fs k))
    rw [hsplit, render, flatMap_cons, length_append, ← render]
    exact Nat.add_le_add (hone ks _ _ hks) ih

end Modbit.Lib.Protobuf
