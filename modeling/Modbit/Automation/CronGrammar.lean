import Modbit.Automation.Cron

/-!
# The grammar of cron fields

A field is a list of parts between commas; a part is `*`, a value or a range, perhaps with a step.
`Part` says so without the code, and of numbers of any size.  `parsePart_iff`: the code reads the parts
of the grammar whose step is a `u32`, and nothing else.  `Lists` says which values a field lists.
-/

namespace Modbit

open Lib List

namespace Automations.Cron

/-- A number as `u32` writes one, of any size. -/
def Numeral (l : List Char) (n : Nat) : Prop :=
  ∃ ds, (l = ds ∨ l = '+' :: ds) ∧ ds ≠ [] ∧ ds.all Char.isDigit = true ∧
    Nat.ofDigitChars 10 ds 0 = n

inductive Range (min max : Nat) : List Char → Nat → Nat → Prop
  | all : Range min max ['*'] min max
  | value {l : List Char} {v : Nat} : Numeral l v → min ≤ v → v ≤ max → Range min max l v v
  | span {a b : List Char} {lo hi : Nat} : Numeral a lo → Numeral b hi → min ≤ lo → lo ≤ hi →
      hi ≤ max → Range min max (a ++ '-' :: b) lo hi

inductive Part (min max : Nat) : List Char → Nat → Nat → Nat → Prop
  | plain {l : List Char} {lo hi : Nat} : Range min max l lo hi → Part min max l lo hi 1
  | stepped {l s : List Char} {lo hi step : Nat} : Range min max l lo hi → Numeral s step →
      0 < step → Part min max (l ++ '/' :: s) lo hi step

/-! ### Numbers -/

variable {l : List Char} {n : Nat}

theorem Numeral.chars (h : Numeral l n) : ∀ c ∈ l, c.isDigit = true ∨ c = '+' := by
  obtain ⟨ds, hl, -, hdigits, -⟩ := h
  intro c hc
  rcases hl with rfl | rfl
  · exact .inl (all_eq_true.mp hdigits c hc)
  · rcases mem_cons.mp hc with rfl | hc
    · exact .inr rfl
    · exact .inl (all_eq_true.mp hdigits c hc)

theorem Numeral.not_mem (h : Numeral l n) {c : Char}
    (hdigit : c.isDigit = false) (hplus : c ≠ '+') : c ∉ l := by
  intro hc
  rcases h.chars c hc with hd | rfl
  · rw [hdigit] at hd
    cases hd
  · exact hplus rfl

theorem Numeral.value_eq (h : Numeral l n) : n = Nat.ofDigitChars 10 (l.filter Char.isDigit) 0 := by
  obtain ⟨ds, hl, -, hdigits, rfl⟩ := h
  have hkeep : ds.filter Char.isDigit = ds := filter_eq_self.mpr (all_eq_true.mp hdigits)
  rcases hl with rfl | rfl
  · rw [hkeep]
  · rw [filter_cons_of_neg (by decide), hkeep]

theorem parseU32_iff {v : UInt32} : Text.parseU32 l = some v ↔ Numeral l v.toNat := by
  unfold Text.parseU32
  extract_lets cut
  constructor
  · intro h
    split_ifs at h with hdigits hlt
    refine ⟨cut, ?_, hdigits.1, hdigits.2, ?_⟩
    · dsimp only [cut]
      split
      · exact .inr rfl
      · exact .inl rfl
    · rw [← Option.some.inj h, UInt32.toNat_ofNat_of_lt' hlt]
  · rintro ⟨ds, hl, hne, hdigits, hvalue⟩
    have hcut : cut = ds := by
      dsimp only [cut]
      rcases hl with rfl | rfl
      · split
        · -- a plus is no digit
          exact absurd (all_eq_true.mp hdigits '+' mem_cons_self) (by decide)
        · rfl
      · obtain ⟨d, rest, rfl⟩ := exists_cons_of_ne_nil hne
        rfl
    rw [← hcut] at hne hdigits hvalue
    rw [if_pos ⟨hne, hdigits⟩, if_pos (hvalue ▸ v.toNat_lt), hvalue, UInt32.ofNat_toNat]

theorem parseU32_map_iff :
    (Text.parseU32 l).map UInt32.toNat = some n ↔ Numeral l n ∧ n < 2 ^ 32 := by
  rw [Option.map_eq_some_iff]
  constructor
  · rintro ⟨v, hv, rfl⟩
    exact ⟨parseU32_iff.mp hv, v.toNat_lt⟩
  · rintro ⟨hl, hlt⟩
    have hof : (UInt32.ofNat n).toNat = n := UInt32.toNat_ofNat_of_lt' hlt
    exact ⟨.ofNat n, parseU32_iff.mpr (hof.symm ▸ hl), hof⟩

/-! ### Ranges and parts -/

theorem splitOnce_eq_none {c : Char} (h : c ∉ l) : Text.splitOnce c l = none := by
  induction l with
  | nil => rfl
  | cons d l ih =>
    have hd : d ≠ c := fun he => h (he ▸ mem_cons_self)
    rw [Text.splitOnce, if_neg hd, ih (fun hm => h (mem_cons_of_mem d hm))]
    rfl

variable {min max lo hi : Nat}

theorem Range.slash_not_mem (h : Range min max l lo hi) : '/' ∉ l := by
  cases h with
  | all => decide
  | value hv => exact hv.not_mem rfl (by decide)
  | span ha hb =>
    intro hm
    rcases mem_append.mp hm with hm | hm
    · exact ha.not_mem rfl (by decide) hm
    · rcases mem_cons.mp hm with heq | hm
      · exact absurd heq (by decide)
      · exact hb.not_mem rfl (by decide) hm

theorem Range.bounds (hle : min ≤ max)
    (h : Range min max l lo hi) : min ≤ lo ∧ lo ≤ hi ∧ hi ≤ max := by
  cases h with
  | all => exact ⟨Nat.le_refl _, hle, Nat.le_refl _⟩
  | value _ hmin hmax => exact ⟨hmin, Nat.le_refl _, hmax⟩
  | span _ _ hmin hlo hmax => exact ⟨hmin, hlo, hmax⟩

theorem parseRange_iff (hle : min ≤ max) (hmax : max < 2 ^ 32) :
    parseRange l min max = some (lo, hi) ∧ ¬ (lo < min ∨ hi > max ∨ lo > hi) ↔
      Range min max l lo hi := by
  constructor
  · rintro ⟨h, hbounds⟩
    unfold parseRange at h
    split_ifs at h with hstar
    · cases h
      exact hstar ▸ .all
    · cases hsplit : Text.splitOnce '-' l with
      | none =>
        rw [hsplit] at h
        obtain ⟨v, hv, heq⟩ := Option.map_eq_some_iff.mp h
        cases heq
        exact .value (parseU32_iff.mp hv) (by omega) (by omega)
      | some p =>
        obtain ⟨a, b⟩ := p
        rw [hsplit] at h
        obtain ⟨lo', ha, h⟩ := Option.bind_eq_some_iff.mp h
        obtain ⟨hi', hb, heq⟩ := Option.map_eq_some_iff.mp h
        cases heq
        rw [Text.append_of_splitOnce hsplit]
        exact .span (parseU32_iff.mp ha) (parseU32_iff.mp hb) (by omega) (by omega) (by omega)
  · intro h
    obtain ⟨hmin, hlo, hhi⟩ := h.bounds hle
    refine ⟨?_, by omega⟩
    unfold parseRange
    cases h with
    | all => exact if_pos rfl
    | value hv =>
      have hstar : l ≠ ['*'] := by
        rintro rfl
        exact hv.not_mem rfl (by decide) mem_cons_self
      obtain ⟨v, hparse, hv'⟩ := Option.map_eq_some_iff.mp (parseU32_map_iff.mpr ⟨hv, by omega⟩)
      rw [if_neg hstar, splitOnce_eq_none (hv.not_mem rfl (by decide))]
      rw [hparse, ← hv']
      rfl
    | @span a b _ _ ha hb =>
      have hstar : a ++ '-' :: b ≠ ['*'] := by
        intro heq
        have hmem : '-' ∈ ['*'] := heq ▸ mem_append_right _ mem_cons_self
        exact absurd hmem (by decide)
      obtain ⟨lo', hparse, hlo'⟩ := Option.map_eq_some_iff.mp (parseU32_map_iff.mpr ⟨ha, by omega⟩)
      obtain ⟨hi', hparse', hhi'⟩ := Option.map_eq_some_iff.mp (parseU32_map_iff.mpr ⟨hb, by omega⟩)
      rw [if_neg hstar, Text.splitOnce_append _ _ (ha.not_mem rfl (by decide))]
      dsimp only
      rw [hparse, hparse', ← hlo', ← hhi']
      rfl

variable {part : List Char} {step : Nat}

/-- **The parts that are read are those of the grammar whose step is a `u32`.** -/
theorem parsePart_iff (hle : min ≤ max) (hmax : max < 2 ^ 32) :
    parsePart part min max = some (lo, hi, step) ↔ Part min max part lo hi step ∧ step < 2 ^ 32 := by
  have hbounds : ∀ {range : List Char} {step' : Nat},
      ((parseRange range min max).bind (fun p =>
        if p.1 < min ∨ p.2 > max ∨ p.1 > p.2 then none else some (p.1, p.2, step')) =
          some (lo, hi, step)) ↔ Range min max range lo hi ∧ step' = step := by
    intro range step'
    rw [← parseRange_iff hle hmax, Option.bind_eq_some_iff]
    constructor
    · rintro ⟨⟨lo', hi'⟩, hrange, h⟩
      split_ifs at h with hbad
      cases h
      exact ⟨⟨hrange, hbad⟩, rfl⟩
    · rintro ⟨⟨hrange, hbad⟩, rfl⟩
      exact ⟨_, hrange, if_neg hbad⟩
  unfold parsePart
  rw [Option.bind_eq_some_iff]
  constructor
  · rintro ⟨⟨range, step'⟩, hstep, h⟩
    obtain ⟨hrange, rfl⟩ := hbounds.mp h
    unfold parseStep at hstep
    cases hsplit : Text.splitOnce '/' part with
    | none =>
      rw [hsplit] at hstep
      cases hstep
      exact ⟨.plain hrange, by decide⟩
    | some p =>
      obtain ⟨r, s⟩ := p
      rw [hsplit] at hstep
      obtain ⟨v, hv, heq⟩ := Option.map_eq_some_iff.mp hstep
      cases heq
      obtain ⟨hparse, hpos⟩ := Option.filter_eq_some_iff.mp hv
      rw [Text.append_of_splitOnce hsplit]
      exact ⟨.stepped hrange (parseU32_iff.mp hparse) (UInt32.lt_iff_toNat_lt.mp (of_decide_eq_true hpos)),
        v.toNat_lt⟩
  · rintro ⟨hpart, hlt⟩
    cases hpart with
    | plain hrange =>
      refine ⟨(part, 1), ?_, hbounds.mpr ⟨hrange, rfl⟩⟩
      rw [parseStep, splitOnce_eq_none hrange.slash_not_mem]
    | @stepped l s _ _ _ hrange hs hpos =>
      refine ⟨(l, step), ?_, hbounds.mpr ⟨hrange, rfl⟩⟩
      obtain ⟨v, hparse, rfl⟩ := Option.map_eq_some_iff.mp (parseU32_map_iff.mpr ⟨hs, hlt⟩)
      rw [parseStep, Text.splitOnce_append _ _ hrange.slash_not_mem]
      dsimp only
      have hpos' : decide (0 < v) = true := decide_eq_true (UInt32.lt_iff_toNat_lt.mpr hpos)
      rw [hparse, Option.filter_some, if_pos hpos']
      rfl

theorem Part.read (hle : min ≤ max) (hmax : max < 2 ^ 32)
    (h : Part min max part lo hi step) (hreads : (parsePart part min max).isSome = true) :
    parsePart part min max = some (lo, hi, step) := by
  refine (parsePart_iff hle hmax).mpr ⟨h, ?_⟩
  cases h with
  | plain => decide
  | @stepped l s _ _ _ hrange hs =>
    obtain ⟨p, hp⟩ := Option.isSome_iff_exists.mp hreads
    obtain ⟨⟨range, step'⟩, hstep, -⟩ := Option.bind_eq_some_iff.mp hp
    rw [parseStep, Text.splitOnce_append _ _ hrange.slash_not_mem] at hstep
    obtain ⟨v, hv, -⟩ := Option.map_eq_some_iff.mp hstep
    have hnumeral := parseU32_iff.mp (Option.filter_eq_some_iff.mp hv).1
    rw [hs.value_eq, ← hnumeral.value_eq]
    exact v.toNat_lt

theorem Part.bounds (hle : min ≤ max)
    (h : Part min max part lo hi step) : min ≤ lo ∧ lo ≤ hi ∧ hi ≤ max ∧ 0 < step := by
  cases h with
  | plain hrange =>
    obtain ⟨hmin, hlo, hhi⟩ := hrange.bounds hle
    exact ⟨hmin, hlo, hhi, Nat.one_pos⟩
  | stepped hrange _ hpos =>
    obtain ⟨hmin, hlo, hhi⟩ := hrange.bounds hle
    exact ⟨hmin, hlo, hhi, hpos⟩

/-! ### Fields -/

def Covers (min max : Nat) (part : List Char) (x : Nat) : Prop :=
  ∃ lo hi step, Part min max part lo hi step ∧ lo ≤ x ∧ x ≤ hi ∧ step ∣ x - lo

def Lists (min max : Nat) (text : String) (x : Nat) : Prop :=
  ∃ part ∈ text.toList.splitOn ',', Covers min max part x

theorem Lists.bounds {text : String} {x : Nat} (hle : min ≤ max)
    (h : Lists min max text x) : min ≤ x ∧ x ≤ max := by
  obtain ⟨part, -, lo, hi, step, hpart, hlo, hhi, -⟩ := h
  obtain ⟨hmin, -, hmax, -⟩ := hpart.bounds hle
  exact ⟨Nat.le_trans hmin hlo, Nat.le_trans hhi hmax⟩

end Automations.Cron

end Modbit
