import Mathlib.Data.List.Infix

/-!
# Cutting a list at the occurrences of another

`cuts o 0 l` is what there is between the occurrences of `o` in `l`, taken from the left and without
overlap; putting something else between the pieces replaces the occurrences.

`not_infix_of_mem_cuts`: no piece has an occurrence left.  `infix_intercalate_iff`: what occurs after the
replacement occurs in a piece or across what was put in (`Crosses`).  `intercalate_cuts_append` and
`intercalate_cuts_cons` say what a replacement does at the front.
-/

namespace Modbit.Lib

open List

variable {α : Type*} [DecidableEq α]

def glue (c : α) : List (List α) → List (List α)
  | [] => [[c]]
  | p :: ps => (c :: p) :: ps

/-- The pieces of a list between the occurrences of `o`, the first `skip` elements belonging to one. -/
def cuts (o : List α) : Nat → List α → List (List α)
  | _, [] => [[]]
  | 0, c :: rest =>
    if o <+: c :: rest then [] :: cuts o (o.length - 1) rest else glue c (cuts o 0 rest)
  | skip + 1, _ :: rest => cuts o skip rest

/-- `u` occurs in the pieces with `m` between them, and has a part in one of these `m`s. -/
def Crosses (u m : List α) : List (List α) → Prop
  | p :: q :: ps =>
    (∃ i < p.length + m.length, p.length < i + u.length ∧ u <+: (m.intercalate (p :: q :: ps)).drop i) ∨
      Crosses u m (q :: ps)
  | _ => False

instance decidableCrosses (u m : List α) : ∀ ps, Decidable (Crosses u m ps)
  | [] => .isFalse id
  | [_] => .isFalse id
  | p :: q :: ps =>
    have := decidableCrosses u m (q :: ps)
    inferInstanceAs (Decidable ((∃ i < p.length + m.length, p.length < i + u.length ∧
      u <+: (m.intercalate (p :: q :: ps)).drop i) ∨ Crosses u m (q :: ps)))

omit [DecidableEq α] in
theorem glue_ne_nil (c : α) (ps : List (List α)) : glue c ps ≠ [] := by
  cases ps with
  | nil => exact cons_ne_nil _ _
  | cons p ps => exact cons_ne_nil _ _

theorem cuts_ne_nil (o : List α) : ∀ skip l, cuts o skip l ≠ []
  | _, [] => by
    rw [cuts]
    exact cons_ne_nil _ _
  | 0, c :: rest => by
    rw [cuts]
    split_ifs
    · exact cons_ne_nil _ _
    · exact glue_ne_nil c _
  | skip + 1, _ :: rest => by
    rw [cuts]
    exact cuts_ne_nil o skip rest

omit [DecidableEq α] in
theorem intercalate_glue (m : List α) (c : α) {ps : List (List α)} (h : ps ≠ []) :
    m.intercalate (glue c ps) = c :: m.intercalate ps := by
  cases ps with
  | nil => exact absurd rfl h
  | cons p ps => exact intercalate_cons_cons_left

variable {o : List α}

/-- **The pieces with the occurrences between them are the list.** -/
theorem intercalate_cuts (ho : o ≠ []) : ∀ {l : List α} {skip : Nat}, skip ≤ l.length →
    o.intercalate (cuts o skip l) = l.drop skip := by
  intro l
  induction l with
  | nil =>
    intro skip _
    rw [drop_nil, cuts, intercalate_singleton]
  | cons c rest ih =>
    intro skip hskip
    cases skip with
    | succ skip =>
      rw [cuts, drop_succ_cons]
      exact ih (Nat.le_of_succ_le_succ hskip)
    | zero =>
      rw [cuts, drop_zero]
      split_ifs with hfirst
      · obtain ⟨more, hmore⟩ := hfirst
        obtain ⟨d, o, rfl⟩ := exists_cons_of_ne_nil ho
        obtain ⟨rfl, rfl⟩ := List.cons.inj hmore
        have hle : o.length ≤ (o ++ more).length := (prefix_append o more).length_le
        rw [intercalate_cons_of_ne_nil (cuts_ne_nil _ _ _), length_cons, Nat.add_sub_cancel]
        rw [ih hle, append_eq, drop_left]
        rfl
      · rw [intercalate_glue o c (cuts_ne_nil _ _ _), ih (Nat.zero_le _), drop_zero]

theorem cuts_skip (o : List α) : ∀ (skip : Nat) (l : List α), cuts o skip l = cuts o 0 (l.drop skip)
  | 0, _ => rfl
  | skip + 1, [] => rfl
  | skip + 1, _ :: rest => by
    rw [cuts, drop_succ_cons]
    exact cuts_skip o skip rest

theorem intercalate_cuts_append (ho : o ≠ []) (m l : List α) :
    m.intercalate (cuts o 0 (o ++ l)) = m ++ m.intercalate (cuts o 0 l) := by
  obtain ⟨d, o, rfl⟩ := exists_cons_of_ne_nil ho
  have hbegins : d :: o <+: d :: (o ++ l) := prefix_append (d :: o) l
  rw [cons_append, cuts, if_pos hbegins, cuts_skip, length_cons, Nat.add_sub_cancel,
    drop_left, intercalate_cons_of_ne_nil (cuts_ne_nil _ _ _)]
  rfl

variable {l : List α}

theorem intercalate_cuts_cons {c : α} (h : ¬ o <+: c :: l) (m : List α) :
    m.intercalate (cuts o 0 (c :: l)) = c :: m.intercalate (cuts o 0 l) := by
  rw [cuts, if_neg h, intercalate_glue m c (cuts_ne_nil _ _ _)]

/-- **No piece has an occurrence left**, and the first one is where the list begins. -/
theorem cuts_spec (ho : o ≠ []) : ∀ (l : List α) (skip : Nat),
    (∀ p ∈ cuts o skip l, ¬ o <:+: p) ∧ ∀ p ps, cuts o skip l = p :: ps → p <+: l.drop skip := by
  have hnil : ¬ o <:+: [] := fun h => ho (infix_nil.mp h)
  intro l
  induction l with
  | nil =>
    intro skip
    rw [cuts, drop_nil]
    refine ⟨fun p hp => mem_singleton.mp hp ▸ hnil, fun p ps hps => ?_⟩
    rw [← (List.cons.inj hps).1]
  | cons c rest ih =>
    intro skip
    cases skip with
    | succ skip =>
      rw [cuts, drop_succ_cons]
      exact ih skip
    | zero =>
      rw [cuts, drop_zero]
      split_ifs with hfirst
      · refine ⟨fun p hp => ?_, fun p ps hps => (List.cons.inj hps).1 ▸ nil_prefix⟩
        rcases mem_cons.mp hp with rfl | hp
        · exact hnil
        · exact (ih _).1 p hp
      · obtain ⟨hfree, hhead⟩ := ih 0
        cases hcuts : cuts o 0 rest with
        | nil => exact absurd hcuts (cuts_ne_nil o 0 rest)
        | cons q qs =>
          rw [hcuts] at hfree
          have hq := hhead q qs hcuts
          rw [drop_zero] at hq
          have hcons : c :: q <+: c :: rest := cons_prefix_cons.mpr ⟨rfl, hq⟩
          refine ⟨fun p hp => ?_, fun p ps hps => (List.cons.inj hps).1 ▸ hcons⟩
          rcases mem_cons.mp hp with rfl | hp
          · -- an occurrence is at the front, or in what was a piece before
            intro hmem
            rcases infix_cons_iff.mp hmem with hbegins | hmem
            · exact hfirst (hbegins.trans hcons)
            · exact hfree q mem_cons_self hmem
          · exact hfree p (mem_cons_of_mem q hp)

variable {p : List α}

theorem not_infix_of_mem_cuts (ho : o ≠ []) (hp : p ∈ cuts o 0 l) : ¬ o <:+: p :=
  (cuts_spec ho l 0).1 p hp

omit [DecidableEq α] in
theorem infix_intercalate_of_mem {m p : List α} : ∀ {ps : List (List α)}, p ∈ ps →
    p <:+: m.intercalate ps
  | [q], hp => by
    rw [intercalate_singleton, mem_singleton.mp hp]
  | q :: r :: ps, hp => by
    rw [intercalate_cons_cons]
    rcases mem_cons.mp hp with rfl | hp
    · exact ⟨[], m ++ m.intercalate (r :: ps), by simp⟩
    · exact (infix_intercalate_of_mem hp).trans (suffix_append (q ++ m) _).isInfix

theorem infix_of_mem_cuts (ho : o ≠ []) (hp : p ∈ cuts o 0 l) : p <:+: l := by
  have hwhole := intercalate_cuts ho (Nat.zero_le l.length)
  rw [drop_zero] at hwhole
  exact hwhole ▸ infix_intercalate_of_mem hp

omit [DecidableEq α] in
theorem infix_iff_drop {u l : List α} : u <:+: l ↔ ∃ i, u <+: l.drop i := by
  constructor
  · rintro ⟨x, y, rfl⟩
    refine ⟨x.length, y, ?_⟩
    rw [append_assoc, drop_left]
  · rintro ⟨i, h⟩
    exact h.isInfix.trans (drop_suffix i l).isInfix

omit [DecidableEq α] in
/-- **What occurs after a replacement**: it occurs in a piece, or across what was put in. -/
theorem infix_intercalate_iff {u m : List α} (hu : u ≠ []) : ∀ {ps : List (List α)},
    u <:+: m.intercalate ps ↔ (∃ p ∈ ps, u <:+: p) ∨ Crosses u m ps
  | [] => by
    rw [intercalate_nil, infix_nil]
    exact iff_of_false hu (fun h => h.elim (fun ⟨p, hp, _⟩ => by cases hp) id)
  | [p] => by
    rw [intercalate_singleton]
    refine ⟨fun h => .inl ⟨p, mem_cons_self, h⟩, fun h => ?_⟩
    obtain ⟨q, hq, h⟩ := h.resolve_right id
    exact mem_singleton.mp hq ▸ h
  | p :: q :: ps => by
    have hrest : u <:+: m.intercalate (q :: ps) ↔ _ := infix_intercalate_iff hu
    rw [Crosses, intercalate_cons_cons]
    constructor
    · intro h
      obtain ⟨i, hi⟩ := infix_iff_drop.mp h
      rcases Nat.lt_or_ge i (p.length + m.length) with hlt | hge
      · rcases Nat.lt_or_ge p.length (i + u.length) with hcross | hin
        · exact .inr (.inl ⟨i, hlt, hcross, hi⟩)
        · -- it ends before what was put in
          left
          refine ⟨p, mem_cons_self, ?_⟩
          rw [append_assoc, drop_append_of_le_length (by omega)] at hi
          have hlen : u.length ≤ (p.drop i).length := by
            rw [length_drop]
            omega
          exact (prefix_of_prefix_length_le hi (prefix_append _ _) hlen).isInfix.trans
            (drop_suffix i p).isInfix
      · -- it begins after what was put in
        have hu' : u <:+: m.intercalate (q :: ps) := by
          rw [drop_append, drop_eq_nil_of_le (by rwa [length_append])] at hi
          exact infix_iff_drop.mpr ⟨_, hi⟩
        rcases hrest.mp hu' with ⟨r, hr, h⟩ | h
        · exact .inl ⟨r, mem_cons_of_mem p hr, h⟩
        · exact .inr (.inr h)
    · rintro (⟨r, hr, h⟩ | ⟨i, -, -, hi⟩ | h)
      · rw [← intercalate_cons_cons]
        exact h.trans (infix_intercalate_of_mem hr)
      · exact infix_iff_drop.mpr ⟨i, hi⟩
      · exact (hrest.mpr (.inr h)).trans (suffix_append (p ++ m) _).isInfix

omit [DecidableEq α] in
/-- What has nothing in common with what was put in does not reach into it. -/
theorem not_crosses {u m : List α} (hu : u ≠ []) (hm : ∀ c ∈ m, c ∉ u) (hne : m ≠ []) :
    ∀ ps : List (List α), ¬ Crosses u m ps
  | [] => id
  | [_] => id
  | p :: q :: ps => by
    rintro (⟨i, hi, hcross, more, hmore⟩ | h)
    · have hpos := length_pos_of_ne_nil hu
      have hlen := length_pos_of_ne_nil hne
      -- the first element that is behind the piece
      have hk : p.length - i < u.length := by omega
      have hplace : i + (p.length - i) - p.length < m.length := by omega
      have hat := congrArg (·[p.length - i]?) hmore
      rw [getElem?_append_left hk, getElem?_drop, intercalate_cons_cons,
        append_assoc, getElem?_append_right (by omega),
        getElem?_append_left hplace, getElem?_eq_getElem hplace] at hat
      exact hm _ (getElem_mem hplace) (mem_of_getElem? hat)
    · exact not_crosses hu hm hne (q :: ps) h

end Modbit.Lib
