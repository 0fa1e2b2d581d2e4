import Modbit.Automation.CronGrammar
import Modbit.Lib.Calendar
import Mathlib.Algebra.BigOperators.Intervals
import Mathlib.Data.List.TakeWhile
import Mathlib.Order.Interval.Finset.Nat
import Mathlib.Tactic.IntervalCases

/-!
# Cron specs, exactly

`parseChecked` is the parse with its sums watched: `none` is a sum that is no `u32`, or a loop that
does not end.  A spec is parsed and matched as cron means it (`CronSpec.Exact`) if the parse returns,
accepts what is well formed, and the spec then matches the minutes that are due.

`cron_exact_iff` says when: no part that is reached begins within a step of the end of `u32`, no step
is longer than that, and the days of the week do not name Sunday twice and leave out one day while
the days of the month are restricted as well, for seven codes are then counted as all days.
-/

namespace Modbit

open Lib List

namespace Automations

open Cron

/-! ### Sums that overflow -/

/-- `expand`, up to a sum that is no `u32`. -/
def expandChecked (hi step : Nat) : Nat → Nat → List Nat → Option (List Nat)
  | 0, _, _ => none
  | fuel + 1, v, values =>
    if v ≤ hi then
      if v + step < 2 ^ 32 then expandChecked hi step fuel (v + step) (values.insert v) else none
    else some values

/-- `parseField`, up to a sum that is no `u32`. -/
def fieldChecked (min max : Nat) : List (List Char) → List Nat → Option (Option (List Nat))
  | [], values => some (some values)
  | part :: parts, values =>
    match parsePart part min max with
    | none => some none
    | some (lo, hi, step) =>
      (expandChecked hi step (hi + 2) lo values).bind (fieldChecked min max parts)

def andThen {α β : Type} (o : Option (Option α)) (next : α → Option (Option β)) :
    Option (Option β) :=
  match o with
  | none => none
  | some none => some none
  | some (some a) => next a

def CronSpec.parseChecked (spec : String) : Option (Option CronSpec) :=
  match Text.splitWhitespace spec with
  | [minute, hour, day, month, weekday] =>
    andThen (fieldChecked 0 59 (minute.toList.splitOn ',') []) (fun minute =>
    andThen (fieldChecked 0 23 (hour.toList.splitOn ',') []) (fun hour =>
    andThen (fieldChecked 1 31 (day.toList.splitOn ',') []) (fun day =>
    andThen (fieldChecked 1 12 (month.toList.splitOn ',') []) (fun month =>
    andThen (fieldChecked 0 7 (weekday.toList.splitOn ',') []) (fun weekday =>
      some (some ⟨minute, hour, day, month, weekday⟩))))))
  | _ => some none

theorem dvd_sub_iff {v step x : Nat} (hstep : 0 < step) :
    v ≤ x ∧ step ∣ x - v ↔ x = v ∨ (v + step ≤ x ∧ step ∣ x - (v + step)) := by
  constructor
  · rintro ⟨hle, k, hk⟩
    cases k with
    | zero => exact .inl (by omega)
    | succ k =>
      rw [Nat.mul_succ] at hk
      exact .inr ⟨by omega, k, by omega⟩
  · rintro (rfl | ⟨hle, k, hk⟩)
    · exact ⟨Nat.le_refl _, by rw [Nat.sub_self]; exact Nat.dvd_zero _⟩
    · exact ⟨by omega, k + 1, by rw [Nat.mul_succ]; omega⟩

/-- Where the first sum is a `u32`, they all are: a value that is reached is above the step. -/
theorem expandChecked_spec {hi step : Nat} (hstep : 0 < step) (hhi : 2 * hi < 2 ^ 32) :
    ∀ (fuel v : Nat) (values : List Nat), 0 < fuel → (v ≤ hi → hi + 2 ≤ v + fuel) →
      (v ≤ hi → v + step < 2 ^ 32) → values.Nodup →
      ∃ vs, expandChecked hi step fuel v values = some vs ∧ expand hi step fuel v values = vs ∧
        vs.Nodup ∧ ∀ x, x ∈ vs ↔ x ∈ values ∨ ((v ≤ x ∧ step ∣ x - v) ∧ x ≤ hi) := by
  intro fuel
  induction fuel with
  | zero => exact fun v values hfuel => absurd hfuel (Nat.lt_irrefl 0)
  | succ fuel ih =>
    intro v values _ hfuel hfits hnodup
    rw [expandChecked, expand]
    by_cases hv : v ≤ hi
    · rw [if_pos hv, if_pos (hfits hv), if_pos hv, Nat.mod_eq_of_lt (hfits hv)]
      have hfuel' := hfuel hv
      obtain ⟨vs, hchecked, hexpand, hvs, hmem⟩ := ih (v + step) (values.insert v) (by omega)
        (by omega) (by omega) (hnodup.insert (a := v))
      refine ⟨vs, hchecked, hexpand, hvs, fun x => ?_⟩
      rw [hmem, mem_insert_iff, dvd_sub_iff (v := v) hstep]
      constructor
      · rintro ((rfl | hx) | ⟨hx, hle⟩)
        · exact .inr ⟨.inl rfl, hv⟩
        · exact .inl hx
        · exact .inr ⟨.inr hx, hle⟩
      · rintro (hx | ⟨rfl | hx, hle⟩)
        · exact .inl (.inr hx)
        · exact .inl (.inl rfl)
        · exact .inr ⟨hx, hle⟩
    · rw [if_neg hv, if_neg hv]
      refine ⟨values, rfl, rfl, hnodup, fun x => ⟨.inl, ?_⟩⟩
      rintro (hx | ⟨⟨hle, -⟩, hhi'⟩)
      · exact hx
      · exact absurd (Nat.le_trans hle hhi') hv

theorem expandChecked_overflow {hi step lo fuel : Nat} {values : List Nat} (hle : lo ≤ hi)
    (hover : ¬ lo + step < 2 ^ 32) : expandChecked hi step (fuel + 1) lo values = none := by
  rw [expandChecked, if_pos hle, if_neg hover]

/-! ### Fields -/

section Field

variable {min max : Nat}

/-- The first sum of a part that is read is a `u32`. -/
def Fits (min max : Nat) (part : List Char) : Prop :=
  ∀ lo hi step, parsePart part min max = some (lo, hi, step) → lo + step < 2 ^ 32

/-- The fold of `parseField`. -/
def collect (min max : Nat) (parts : List (List Char)) (values : List Nat) : Option (List Nat) :=
  parts.foldlM (fun values part => do
    let (lo, hi, step) ← parsePart part min max
    pure (expand hi step (hi + 2) lo values)) values

theorem collect_cons (part : List Char) (parts : List (List Char)) (values : List Nat) :
    collect min max (part :: parts) values = (parsePart part min max).bind (fun p =>
      collect min max parts (expand p.2.1 p.2.2 (p.2.1 + 2) p.1 values)) := by
  rw [collect, foldlM_cons]
  cases parsePart part min max with
  | none => rfl
  | some p => rfl

theorem collect_isSome (parts : List (List Char)) : ∀ values : List Nat,
    (collect min max parts values).isSome = true ↔
      ∀ part ∈ parts, (parsePart part min max).isSome = true := by
  induction parts with
  | nil => exact fun values => ⟨fun _ part hpart => (by cases hpart), fun _ => rfl⟩
  | cons part parts ih =>
    intro values
    rw [collect_cons, forall_mem_cons]
    cases hp : parsePart part min max with
    | none => exact ⟨fun h => (by cases h), fun h => h.1⟩
    | some p => exact (ih _).trans ⟨fun h => ⟨rfl, h⟩, fun h => h.2⟩

theorem fieldChecked_cons {part : List Char} {lo hi step : Nat} (hmax : 2 * max < 2 ^ 32)
    (hle : min ≤ max) (hp : parsePart part min max = some (lo, hi, step)) (hfits : lo + step < 2 ^ 32)
    (parts : List (List Char)) {values : List Nat} (hnodup : values.Nodup) :
    ∃ vs, vs.Nodup ∧ fieldChecked min max (part :: parts) values = fieldChecked min max parts vs ∧
      collect min max (part :: parts) values = collect min max parts vs ∧
      ∀ x, x ∈ vs ↔ x ∈ values ∨ Covers min max part x := by
  have hpart := ((parsePart_iff hle (by omega)).mp hp).1
  obtain ⟨hmin, hlo, hhi, hpos⟩ := hpart.bounds hle
  obtain ⟨vs, hchecked, hexpand, hvs, hmem⟩ := expandChecked_spec hpos (by omega : 2 * hi < 2 ^ 32)
    (hi + 2) lo values (by omega) (by omega) (fun _ => hfits) hnodup
  refine ⟨vs, hvs, ?_, ?_, fun x => (hmem x).trans (or_congr_right ?_)⟩
  · rw [fieldChecked, hp]
    dsimp only
    rw [hchecked, Option.bind_some]
  · rw [collect_cons, hp, Option.bind_some, hexpand]
  · constructor
    · rintro ⟨⟨hxlo, hdvd⟩, hxhi⟩
      exact ⟨lo, hi, step, hpart, hxlo, hxhi, hdvd⟩
    · rintro ⟨lo', hi', step', hpart', hxlo, hxhi, hdvd⟩
      have hsame := hpart'.read hle (by omega) (by rw [hp]; rfl)
      rw [hp] at hsame
      cases hsame
      exact ⟨⟨hxlo, hdvd⟩, hxhi⟩

def reached (min max : Nat) (parts : List (List Char)) : List (List Char) :=
  parts.takeWhile (fun part => (parsePart part min max).isSome)

/-- **A field returns what is read exactly when the parts that are reached fit.** -/
theorem fieldChecked_iff (hmax : 2 * max < 2 ^ 32) (hle : min ≤ max) (parts : List (List Char)) :
    ∀ values : List Nat, values.Nodup →
      (fieldChecked min max parts values = some (collect min max parts values) ↔
        ∀ part ∈ reached min max parts, Fits min max part) ∧
      (fieldChecked min max parts values ≠ none →
        fieldChecked min max parts values = some (collect min max parts values)) := by
  induction parts with
  | nil => exact fun values _ => ⟨⟨fun _ part hpart => (by cases hpart), fun _ => rfl⟩, fun _ => rfl⟩
  | cons part parts ih =>
    intro values hnodup
    cases hp : parsePart part min max with
    | none =>
      have hstop : reached min max (part :: parts) = [] := by
        rw [reached, takeWhile_cons_of_neg]
        rw [hp]
        exact Bool.false_ne_true
      have hfield : fieldChecked min max (part :: parts) values
          = some (collect min max (part :: parts) values) := by
        rw [fieldChecked, hp, collect_cons, hp]
        rfl
      rw [hstop]
      exact ⟨⟨fun _ part' hpart' => (by cases hpart'), fun _ => hfield⟩, fun _ => hfield⟩
    | some p =>
      obtain ⟨lo, hi, step⟩ := p
      have hgo : reached min max (part :: parts) = part :: reached min max parts := by
        rw [reached, takeWhile_cons_of_pos]
        · rfl
        · rw [hp]
          rfl
      have hfits : Fits min max part ↔ lo + step < 2 ^ 32 := by
        constructor
        · exact fun h => h lo hi step hp
        · intro h lo' hi' step' hp'
          rw [hp] at hp'
          cases hp'
          exact h
      rw [hgo, forall_mem_cons, hfits]
      by_cases hover : lo + step < 2 ^ 32
      · obtain ⟨vs, hvs, hfield, hcollect, -⟩ := fieldChecked_cons hmax hle hp hover parts hnodup
        rw [hfield, hcollect]
        exact ⟨(ih vs hvs).1.trans ⟨fun h => ⟨hover, h⟩, fun h => h.2⟩, (ih vs hvs).2⟩
      · have hlo := (((parsePart_iff hle (by omega)).mp hp).1.bounds hle).2.1
        have hnone : fieldChecked min max (part :: parts) values = none := by
          rw [fieldChecked, hp]
          dsimp only
          rw [expandChecked_overflow hlo hover]
          rfl
        rw [hnone]
        exact ⟨⟨fun h => (by cases h), fun h => absurd h.1 hover⟩, fun h => absurd rfl h⟩

/-- **The values of an accepted field whose parts fit are those it lists.** -/
theorem mem_collect (hmax : 2 * max < 2 ^ 32) (hle : min ≤ max) (parts : List (List Char)) :
    ∀ {values vs : List Nat}, values.Nodup → (∀ part ∈ parts, Fits min max part) →
      collect min max parts values = some vs →
      vs.Nodup ∧ ∀ x, x ∈ vs ↔ x ∈ values ∨ ∃ part ∈ parts, Covers min max part x := by
  induction parts with
  | nil =>
    intro values vs hnodup _ h
    cases h
    refine ⟨hnodup, fun x => ⟨.inl, ?_⟩⟩
    rintro (hx | ⟨part, hpart, -⟩)
    · exact hx
    · cases hpart
  | cons part parts ih =>
    intro values vs hnodup hfits h
    cases hp : parsePart part min max with
    | none =>
      rw [collect_cons, hp] at h
      cases h
    | some p =>
      obtain ⟨lo, hi, step⟩ := p
      obtain ⟨vs', hvs', -, hcollect, hmem'⟩ := fieldChecked_cons hmax hle hp
        (hfits part mem_cons_self lo hi step hp) parts hnodup
      rw [hcollect] at h
      obtain ⟨hvs, hmem⟩ := ih hvs' (fun q hq => hfits q (mem_cons_of_mem _ hq)) h
      refine ⟨hvs, fun x => ?_⟩
      rw [hmem, hmem', or_assoc, exists_mem_cons_iff]

end Field

/-! ### What a spec means -/

structure Fields where
  minute : String
  hour : String
  day : String
  month : String
  weekday : String
  deriving DecidableEq

def fieldsOf (spec : String) : Option Fields :=
  match Text.splitWhitespace spec with
  | [minute, hour, day, month, weekday] => some ⟨minute, hour, day, month, weekday⟩
  | _ => none

namespace Fields

variable (f : Fields)

def partsOf (text : String) (min max : Nat) : List (List Char × Nat × Nat) :=
  (text.toList.splitOn ',').map (fun part => (part, min, max))

/-- The parts with their bounds, in the order in which they are read. -/
def parts : List (List Char × Nat × Nat) :=
  partsOf f.minute 0 59 ++ (partsOf f.hour 0 23 ++ (partsOf f.day 1 31 ++
    (partsOf f.month 1 12 ++ partsOf f.weekday 0 7)))

def WellFormed : Prop := ∀ p ∈ f.parts, ∃ lo hi step, Part p.2.1 p.2.2 p.1 lo hi step

def OnWeekday (w : Nat) : Prop := Lists 0 7 f.weekday w ∨ (w = 0 ∧ Lists 0 7 f.weekday 7)

def DayRestricted : Prop := ∃ d, (1 ≤ d ∧ d ≤ 31) ∧ ¬ Lists 1 31 f.day d

def WeekRestricted : Prop := ∃ w < 7, ¬ f.OnWeekday w

/-- One of the two matches where both are restricted, and both match otherwise. -/
def DayDue (d w : Nat) : Prop :=
  (f.DayRestricted ∧ f.WeekRestricted → Lists 1 31 f.day d ∨ f.OnWeekday w) ∧
    (¬ (f.DayRestricted ∧ f.WeekRestricted) → Lists 1 31 f.day d ∧ f.OnWeekday w)

/-- The first day of the calendar was a Thursday. -/
def Due (now : Nat) : Prop :=
  Lists 1 12 f.month (dateOf (now / 86400)).month ∧
    f.DayDue (dateOf (now / 86400)).day ((now / 86400 + 4) % 7) ∧
    Lists 0 23 f.hour (now / 3600 % 24) ∧ Lists 0 59 f.minute (now / 60 % 60)

/-! ### When a spec is what it says -/

def reads (p : List Char × Nat × Nat) : Bool := (parsePart p.1 p.2.1 p.2.2).isSome

/-- The first sums of the parts that are reached are `u32`s. -/
def Steady (parts : List (List Char × Nat × Nat)) : Prop :=
  ∀ p ∈ parts.takeWhile reads, Fits p.2.1 p.2.2 p.1

def SmallSteps : Prop := ∀ p ∈ f.parts, ∀ lo hi step, Part p.2.1 p.2.2 p.1 lo hi step → step < 2 ^ 32

/-- Both codes of Sunday and all other days but one are listed, and a day of the month is not. -/
def TwoSundays : Prop :=
  f.DayRestricted ∧ (Lists 0 7 f.weekday 0 ∧ Lists 0 7 f.weekday 7 ∧
    ∃ w, (1 ≤ w ∧ w ≤ 6) ∧ ∀ x, 1 ≤ x → x ≤ 6 → (¬ Lists 0 7 f.weekday x ↔ x = w))

def Plain : Prop := Steady f.parts ∧ (f.WellFormed → f.SmallSteps ∧ ¬ f.TwoSundays)

end Fields

namespace CronSpec

/-- The parse returns, accepts what is well formed, and the spec matches the minutes that are due. -/
structure Exact (spec : String) : Prop where
  returns : parseChecked spec = some (parse spec)
  accepts : (parse spec).isSome = true ↔ ∃ f, fieldsOf spec = some f ∧ f.WellFormed
  due : ∀ c f, parse spec = some c → fieldsOf spec = some f →
    ∀ now < 2 ^ 64, (c.matchesMinute now = true ↔ f.Due now)

end CronSpec

/-! ### The parse -/

theorem Fields.steady_append {a b : List (List Char × Nat × Nat)} :
    Steady (a ++ b) ↔ Steady a ∧
      ((∀ p ∈ a, reads p = true) → Steady b) := by
  unfold Steady
  induction a with
  | nil => exact ⟨fun h => ⟨fun p hp => (by cases hp), fun _ => h⟩, fun h => h.2 (fun p hp => (by cases hp))⟩
  | cons p a ih =>
    rw [cons_append]
    by_cases hp : reads p = true
    · rw [takeWhile_cons_of_pos hp, takeWhile_cons_of_pos hp, forall_mem_cons,
        forall_mem_cons, ih, and_assoc]
      exact and_congr_right fun _ => and_congr_right fun _ => imp_congr_left
        ⟨fun h => forall_mem_cons.mpr ⟨hp, h⟩, fun h => (forall_mem_cons.mp h).2⟩
    · rw [takeWhile_cons_of_neg hp, takeWhile_cons_of_neg hp]
      exact ⟨fun h => ⟨h, fun hall => absurd (hall p mem_cons_self) hp⟩, fun h => h.1⟩

variable {text : String} {min max : Nat}

theorem Fields.steady_partsOf : Steady (partsOf text min max) ↔
      ∀ part ∈ reached min max (text.toList.splitOn ','), Fits min max part := by
  unfold Steady partsOf reached
  rw [takeWhile_map, forall_mem_map]
  rfl

theorem Fields.forall_partsOf {P : List Char × Nat × Nat → Prop} :
    (∀ p ∈ partsOf text min max, P p) ↔ ∀ part ∈ text.toList.splitOn ',', P (part, min, max) :=
  forall_mem_map

theorem andThen_iff {α β : Type} {o : Option (Option α)} {a : Option α}
    {next : α → Option (Option β)} {g : α → Option β} {P Q R : Prop} (ho : o = some a ↔ P)
    (hne : o ≠ none → o = some a) (ha : a.isSome = true ↔ R)
    (hnext : ∀ x, (next x = some (g x) ↔ Q)) :
    andThen o next = some (a.bind g) ↔ P ∧ (R → Q) := by
  rw [← ho, ← ha]
  by_cases hnone : o = none
  · rw [hnone]
    exact ⟨fun h => (by cases h), fun h => (by cases h.1)⟩
  · rw [hne hnone]
    cases a with
    | none => exact ⟨fun _ => ⟨rfl, fun h => (by cases h)⟩, fun _ => rfl⟩
    | some x => exact (hnext x).trans ⟨fun h => ⟨rfl, fun _ => h⟩, fun h => h.2 rfl⟩

variable {β : Type} {Q : Prop}

theorem andThen_field (hmax : 2 * max < 2 ^ 32)
    (hle : min ≤ max) {next : List Nat → Option (Option β)} {g : List Nat → Option β}
    (hnext : ∀ vs, (next vs = some (g vs) ↔ Q)) :
    andThen (fieldChecked min max (text.toList.splitOn ',') []) next
        = some ((parseField text min max).bind g) ↔
      Fields.Steady (Fields.partsOf text min max) ∧
        ((∀ p ∈ Fields.partsOf text min max, Fields.reads p = true) → Q) := by
  obtain ⟨hreturns, hne⟩ := fieldChecked_iff hmax hle (text.toList.splitOn ',') [] nodup_nil
  rw [Fields.steady_partsOf, Fields.forall_partsOf]
  exact andThen_iff hreturns hne (collect_isSome _ _) hnext

variable {spec : String} {f : Fields}

theorem splitWhitespace_of_fieldsOf (hf : fieldsOf spec = some f) :
    Text.splitWhitespace spec = [f.minute, f.hour, f.day, f.month, f.weekday] := by
  unfold fieldsOf at hf
  split at hf
  · next heq =>
    cases hf
    exact heq
  · cases hf

theorem CronSpec.parse_eq (hf : fieldsOf spec = some f) :
    parse spec = (parseField f.minute 0 59).bind (fun minute => (parseField f.hour 0 23).bind
      (fun hour => (parseField f.day 1 31).bind (fun day => (parseField f.month 1 12).bind
        (fun month => (parseField f.weekday 0 7).bind
          (fun weekday => some ⟨minute, hour, day, month, weekday⟩))))) := by
  unfold parse
  rw [splitWhitespace_of_fieldsOf hf]
  rfl

theorem CronSpec.parseChecked_eq (hf : fieldsOf spec = some f) : parseChecked spec =
      andThen (fieldChecked 0 59 (f.minute.toList.splitOn ',') []) (fun minute =>
      andThen (fieldChecked 0 23 (f.hour.toList.splitOn ',') []) (fun hour =>
      andThen (fieldChecked 1 31 (f.day.toList.splitOn ',') []) (fun day =>
      andThen (fieldChecked 1 12 (f.month.toList.splitOn ',') []) (fun month =>
      andThen (fieldChecked 0 7 (f.weekday.toList.splitOn ',') []) (fun weekday =>
        some (some ⟨minute, hour, day, month, weekday⟩)))))) := by
  unfold parseChecked
  rw [splitWhitespace_of_fieldsOf hf]

/-- **The parse returns exactly if the parts that are reached fit.** -/
theorem CronSpec.returns_iff (hf : fieldsOf spec = some f) :
    parseChecked spec = some (parse spec) ↔ Fields.Steady f.parts := by
  rw [parse_eq hf, parseChecked_eq hf, Fields.parts, Fields.steady_append, Fields.steady_append,
    Fields.steady_append, Fields.steady_append]
  refine andThen_field (by decide) (by decide) fun minute => ?_
  refine andThen_field (by decide) (by decide) fun hour => ?_
  refine andThen_field (by decide) (by decide) fun day => ?_
  refine andThen_field (by decide) (by decide) fun month => ?_
  refine (andThen_field (by decide) (by decide) fun weekday => ?_).trans
    (and_iff_left (fun _ => trivial))
  exact iff_true_intro rfl

theorem bind_isSome_iff {α β : Type} {a : Option α} {g : α → Option β}
    (hg : ∀ x, ((g x).isSome = true ↔ Q)) : (a.bind g).isSome = true ↔ a.isSome = true ∧ Q := by
  cases a with
  | none => exact ⟨fun h => (by cases h), fun h => (by cases h.1)⟩
  | some x => exact (hg x).trans ⟨fun h => ⟨rfl, h⟩, fun h => h.2⟩

theorem CronSpec.isSome_parse (hf : fieldsOf spec = some f) :
    (parse spec).isSome = true ↔ ∀ p ∈ f.parts, Fields.reads p = true := by
  have hfield : ∀ text min max, ((parseField text min max).isSome = true ↔
      ∀ p ∈ Fields.partsOf text min max, Fields.reads p = true) := fun text min max => by
    rw [Fields.forall_partsOf]
    exact collect_isSome _ _
  rw [parse_eq hf, Fields.parts, forall_mem_append, forall_mem_append,
    forall_mem_append, forall_mem_append, ← hfield, ← hfield, ← hfield, ← hfield, ← hfield]
  refine bind_isSome_iff fun minute => bind_isSome_iff fun hour => bind_isSome_iff fun day =>
    bind_isSome_iff fun month => (bind_isSome_iff fun weekday => ?_).trans (and_iff_left trivial)
  exact iff_true_intro rfl

theorem mem_parseField {vs : List Nat} (hmax : 2 * max < 2 ^ 32)
    (hle : min ≤ max) (hfits : ∀ p ∈ Fields.partsOf text min max, Fits p.2.1 p.2.2 p.1)
    (h : parseField text min max = some vs) :
    vs.Nodup ∧ ∀ x, x ∈ vs ↔ Lists min max text x := by
  obtain ⟨hnodup, hmem⟩ := mem_collect hmax hle _ nodup_nil (Fields.forall_partsOf.mp hfits) h
  refine ⟨hnodup, fun x => (hmem x).trans ⟨?_, .inr⟩⟩
  rintro (hx | hx)
  · cases hx
  · exact hx

/-- What an accepted spec holds: of each field the values that it lists. -/
structure Holds (f : Fields) (c : CronSpec) : Prop where
  minute : ∀ x, x ∈ c.minute ↔ Lists 0 59 f.minute x
  hour : ∀ x, x ∈ c.hour ↔ Lists 0 23 f.hour x
  day : c.day.Nodup ∧ ∀ x, x ∈ c.day ↔ Lists 1 31 f.day x
  month : ∀ x, x ∈ c.month ↔ Lists 1 12 f.month x
  weekday : c.weekday.Nodup ∧ ∀ x, x ∈ c.weekday ↔ Lists 0 7 f.weekday x

theorem holds_of_parse {c : CronSpec} (hf : fieldsOf spec = some f)
    (hfits : ∀ p ∈ f.parts, Fits p.2.1 p.2.2 p.1) (h : CronSpec.parse spec = some c) : Holds f c := by
  rw [Fields.parts, forall_mem_append, forall_mem_append, forall_mem_append,
    forall_mem_append] at hfits
  obtain ⟨hminute, hhour, hday, hmonth, hweekday⟩ := hfits
  rw [CronSpec.parse_eq hf] at h
  obtain ⟨minute, hm, h⟩ := Option.bind_eq_some_iff.mp h
  obtain ⟨hour, hh, h⟩ := Option.bind_eq_some_iff.mp h
  obtain ⟨day, hd, h⟩ := Option.bind_eq_some_iff.mp h
  obtain ⟨month, hmo, h⟩ := Option.bind_eq_some_iff.mp h
  obtain ⟨weekday, hw, h⟩ := Option.bind_eq_some_iff.mp h
  cases h
  exact ⟨(mem_parseField (by decide) (by decide) hminute hm).2,
    (mem_parseField (by decide) (by decide) hhour hh).2,
    mem_parseField (by decide) (by decide) hday hd,
    (mem_parseField (by decide) (by decide) hmonth hmo).2,
    mem_parseField (by decide) (by decide) hweekday hw⟩

/-! ### Minutes -/

theorem civilFromEpoch_minute (now : Nat) :
    (civilFromEpoch (now - now % 60)).month = (dateOf (now / 86400)).month ∧
    (civilFromEpoch (now - now % 60)).day = (dateOf (now / 86400)).day ∧
    (civilFromEpoch (now - now % 60)).weekday = (now / 86400 + 4) % 7 ∧
    (civilFromEpoch (now - now % 60)).hour = now / 3600 % 24 ∧
    (civilFromEpoch (now - now % 60)).minute = now / 60 % 60 := by
  have hday : (now - now % 60) / 86400 = now / 86400 := by omega
  have hcivil : ∀ secs, (civilFromEpoch secs).month = (Calendar.civil (secs / 86400 + 719468)).month ∧
      (civilFromEpoch secs).day = (Calendar.civil (secs / 86400 + 719468)).day ∧
      (civilFromEpoch secs).weekday = (secs / 86400 + 4) % 7 := fun secs => ⟨rfl, rfl, rfl⟩
  obtain ⟨hm, hd, hw⟩ := hcivil (now - now % 60)
  rw [hday, ← Calendar.dateOf_eq_civil] at hm hd
  rw [hday] at hw
  refine ⟨hm, hd, hw, ?_, ?_⟩
  · show (now - now % 60) % 86400 / 3600 = _
    omega
  · show (now - now % 60) % 86400 % 3600 / 60 = _
    omega

theorem matchesMinute_iff (c : CronSpec) (now : Nat) : c.matchesMinute now = true ↔
    (dateOf (now / 86400)).month ∈ c.month ∧
    (if c.day.length < 31 ∧ c.weekday.length < 7 then
      (dateOf (now / 86400)).day ∈ c.day ∨ ((now / 86400 + 4) % 7 ∈ c.weekday ∨
        (now / 86400 + 4) % 7 = 0 ∧ 7 ∈ c.weekday)
    else (dateOf (now / 86400)).day ∈ c.day ∧ ((now / 86400 + 4) % 7 ∈ c.weekday ∨
        (now / 86400 + 4) % 7 = 0 ∧ 7 ∈ c.weekday)) ∧
    now / 3600 % 24 ∈ c.hour ∧ now / 60 % 60 ∈ c.minute := by
  obtain ⟨hm, hd, hw, hh, hmi⟩ := civilFromEpoch_minute now
  have hrestricted : ((c.day.length ≠ 31 ∨ c.month.length ≠ 12) ∧ c.day.length < 31 ∧
      c.weekday.length < 7) ↔ c.day.length < 31 ∧ c.weekday.length < 7 :=
    ⟨fun h => h.2, fun h => ⟨.inl (Nat.ne_of_lt h.1), h⟩⟩
  unfold CronSpec.matchesMinute
  simp only [hm, hd, hw, hh, hmi, hrestricted, Bool.and_eq_true, contains_iff_mem, and_assoc]
  refine and_congr_right fun _ => and_congr_left fun _ => ?_
  split_ifs
  · simp only [Bool.or_eq_true, Bool.and_eq_true, contains_iff_mem, beq_iff_eq]
  · simp only [Bool.or_eq_true, Bool.and_eq_true, contains_iff_mem, beq_iff_eq]

/-! ### Restricted days -/

theorem length_lt_iff {l : List Nat} (hnodup : l.Nodup) (hin : ∀ x ∈ l, 1 ≤ x ∧ x ≤ 31) :
    l.length < 31 ↔ ∃ d, (1 ≤ d ∧ d ≤ 31) ∧ d ∉ l := by
  have hcard : l.toFinset.card = l.length := toFinset_card_of_nodup hnodup
  have hsub : l.toFinset ⊆ Finset.Icc 1 31 := fun x hx =>
    Finset.mem_Icc.mpr (hin x (mem_toFinset.mp hx))
  have hall : (Finset.Icc 1 31).card = 31 := by rw [Nat.card_Icc]
  constructor
  · intro hlt
    obtain ⟨d, hd, hmissing⟩ := Finset.exists_mem_notMem_of_card_lt_card
      (by omega : l.toFinset.card < (Finset.Icc 1 31).card)
    exact ⟨d, Finset.mem_Icc.mp hd, fun h => hmissing (mem_toFinset.mpr h)⟩
  · rintro ⟨d, hd, hmissing⟩
    have hss : l.toFinset ⊂ Finset.Icc 1 31 := (Finset.ssubset_iff_of_subset hsub).mpr
      ⟨d, Finset.mem_Icc.mpr hd, fun h => hmissing (mem_toFinset.mp h)⟩
    have hlt := Finset.card_lt_card hss
    omega

/-- **Seven codes are counted as all days**, also where two of them are Sunday. -/
theorem length_lt_seven_iff {l : List Nat} (hnodup : l.Nodup) (hin : ∀ x ∈ l, x ≤ 7) :
    l.length < 7 ↔ (∃ w < 7, ¬ (w ∈ l ∨ w = 0 ∧ 7 ∈ l)) ∧
      ¬ (0 ∈ l ∧ 7 ∈ l ∧ ∃ w, (1 ≤ w ∧ w ≤ 6) ∧ ∀ x, 1 ≤ x → x ≤ 6 → (x ∉ l ↔ x = w)) := by
  obtain ⟨a, ha⟩ : ∃ a : Nat → Nat, ∀ x, a x = if x ∈ l then 1 else 0 := ⟨_, fun _ => rfl⟩
  have hmem : ∀ x, x ∈ l ↔ a x = 1 := fun x => by
    rw [ha]
    split_ifs with h
    · exact iff_of_true h rfl
    · exact iff_of_false h (by decide)
  have hle : ∀ x, a x ≤ 1 := fun x => by
    rw [ha]
    split_ifs
    all_goals decide
  have hlength : l.length = a 0 + a 1 + a 2 + a 3 + a 4 + a 5 + a 6 + a 7 := by
    have hfilter : l.toFinset = (Finset.range 8).filter (· ∈ l) := by
      ext x
      rw [mem_toFinset, Finset.mem_filter, Finset.mem_range]
      exact ⟨fun h => ⟨Nat.lt_succ_of_le (hin x h), h⟩, fun h => h.2⟩
    rw [← toFinset_card_of_nodup hnodup, hfilter, Finset.card_filter]
    simp only [← ha, Finset.sum_range_succ, Finset.sum_range_zero, Nat.zero_add]
  have hle0 := hle 0
  have hle1 := hle 1
  have hle2 := hle 2
  have hle3 := hle 3
  have hle4 := hle 4
  have hle5 := hle 5
  have hle6 := hle 6
  have hle7 := hle 7
  simp only [hmem]
  rw [hlength]
  constructor
  · intro hlt
    refine ⟨?_, ?_⟩
    · by_contra hnone
      have hall : ∀ w < 7, a w = 1 ∨ w = 0 ∧ a 7 = 1 := fun w hw =>
        by_contra fun h => hnone ⟨w, hw, h⟩
      have h0 := hall 0 (by decide)
      have h1 := hall 1 (by decide)
      have h2 := hall 2 (by decide)
      have h3 := hall 3 (by decide)
      have h4 := hall 4 (by decide)
      have h5 := hall 5 (by decide)
      have h6 := hall 6 (by decide)
      omega
    · rintro ⟨h0, h7, w, hw, hone⟩
      have h1 := hone 1 (by decide) (by decide)
      have h2 := hone 2 (by decide) (by decide)
      have h3 := hone 3 (by decide) (by decide)
      have h4 := hone 4 (by decide) (by decide)
      have h5 := hone 5 (by decide) (by decide)
      have h6 := hone 6 (by decide) (by decide)
      omega
  · rintro ⟨⟨w, hw, hmissing⟩, htwice⟩
    by_contra hlong
    -- the missing day is then the only one
    refine htwice ⟨?_, ?_, w, ?_, fun x hx hx' => ?_⟩
    all_goals
      interval_cases w
      all_goals try interval_cases x
      all_goals omega

/-! ### Exact specs -/

theorem Fields.parts_bounds (f : Fields) : ∀ p ∈ f.parts, p.2.1 ≤ p.2.2 ∧ p.2.2 < 2 ^ 32 := by
  have hfield : ∀ (text : String) {min max : Nat}, min ≤ max ∧ max < 2 ^ 32 →
      ∀ p ∈ partsOf text min max, p.2.1 ≤ p.2.2 ∧ p.2.2 < 2 ^ 32 := fun text _ _ hb =>
    Fields.forall_partsOf.mpr fun _ _ => hb
  rw [parts, forall_mem_append, forall_mem_append, forall_mem_append, forall_mem_append]
  exact ⟨hfield _ (by decide), hfield _ (by decide), hfield _ (by decide), hfield _ (by decide),
    hfield _ (by decide)⟩

theorem Fields.reads_iff (f : Fields) :
    (∀ p ∈ f.parts, reads p = true) ↔ f.WellFormed ∧ f.SmallSteps := by
  constructor
  · intro h
    refine ⟨fun p hp => ?_, fun p hp lo hi step hpart => ?_⟩
    · obtain ⟨⟨lo, hi, step⟩, hread⟩ := Option.isSome_iff_exists.mp (h p hp)
      obtain ⟨hle, hmax⟩ := f.parts_bounds p hp
      exact ⟨lo, hi, step, ((parsePart_iff hle hmax).mp hread).1⟩
    · obtain ⟨hle, hmax⟩ := f.parts_bounds p hp
      exact ((parsePart_iff hle hmax).mp (hpart.read hle hmax (h p hp))).2
  · rintro ⟨hwell, hsmall⟩ p hp
    obtain ⟨lo, hi, step, hpart⟩ := hwell p hp
    obtain ⟨hle, hmax⟩ := f.parts_bounds p hp
    have hread := (parsePart_iff hle hmax).mpr ⟨hpart, hsmall p hp lo hi step hpart⟩
    rw [reads, hread]
    rfl

theorem Fields.Steady.fits (h : Steady f.parts)
    (hreads : ∀ p ∈ f.parts, reads p = true) : ∀ p ∈ f.parts, Fits p.2.1 p.2.2 p.1 := by
  rwa [Steady, takeWhile_eq_self_iff.mpr hreads] at h

section Held

variable {f : Fields} {c : CronSpec}

/-- **The code's test is that both are restricted, save where Sunday is named twice.** -/
theorem Holds.restricted_iff (h : Holds f c) : c.day.length < 31 ∧ c.weekday.length < 7 ↔
    (f.DayRestricted ∧ f.WeekRestricted) ∧ ¬ f.TwoSundays := by
  have hday : c.day.length < 31 ↔ f.DayRestricted := by
    rw [length_lt_iff h.day.1 fun x hx => ((h.day.2 x).mp hx).bounds (by decide)]
    simp only [h.day.2]
    rfl
  rw [length_lt_seven_iff h.weekday.1 fun x hx => (((h.weekday.2 x).mp hx).bounds (by decide)).2, hday]
  simp only [h.weekday.2]
  constructor
  · rintro ⟨hd, hw, htwice⟩
    exact ⟨⟨hd, hw⟩, fun ht => htwice ht.2⟩
  · rintro ⟨⟨hd, hw⟩, htwice⟩
    exact ⟨hd, hw, fun ht => htwice ⟨hd, ht⟩⟩

theorem Holds.matchesMinute_iff (h : Holds f c) (now : Nat) : c.matchesMinute now = true ↔
    Lists 1 12 f.month (dateOf (now / 86400)).month ∧
    (((f.DayRestricted ∧ f.WeekRestricted) ∧ ¬ f.TwoSundays →
        Lists 1 31 f.day (dateOf (now / 86400)).day ∨ f.OnWeekday ((now / 86400 + 4) % 7)) ∧
      (¬ ((f.DayRestricted ∧ f.WeekRestricted) ∧ ¬ f.TwoSundays) →
        Lists 1 31 f.day (dateOf (now / 86400)).day ∧ f.OnWeekday ((now / 86400 + 4) % 7))) ∧
    Lists 0 23 f.hour (now / 3600 % 24) ∧ Lists 0 59 f.minute (now / 60 % 60) := by
  rw [Automations.matchesMinute_iff, h.month, h.hour, h.minute, h.day.2, h.weekday.2, h.weekday.2,
    ← h.restricted_iff]
  refine and_congr_right fun _ => and_congr_left fun _ => ?_
  split_ifs with hr
  · exact ⟨fun hdue => ⟨fun _ => hdue, fun hn => absurd hr hn⟩, fun hdue => hdue.1 hr⟩
  · exact ⟨fun hdue => ⟨fun hn => absurd hn hr, fun _ => hdue⟩, fun hdue => hdue.2 hr⟩

theorem Holds.matches_iff_due (h : Holds f c) (htwice : ¬ f.TwoSundays) (now : Nat) :
    c.matchesMinute now = true ↔ f.Due now := by
  rw [h.matchesMinute_iff, and_iff_left htwice]
  rfl

theorem exists_lists {text : String} {min max : Nat} (hle : min ≤ max)
    (hwell : ∀ p ∈ Fields.partsOf text min max, ∃ lo hi step, Part p.2.1 p.2.2 p.1 lo hi step) :
    ∃ x, Lists min max text x := by
  obtain ⟨part, hpart⟩ := exists_mem_of_ne_nil _ (splitOn_ne_nil ',' text.toList)
  obtain ⟨lo, hi, step, hp⟩ := Fields.forall_partsOf.mp hwell part hpart
  exact ⟨lo, part, hpart, lo, hi, step, hp, Nat.le_refl _, (hp.bounds hle).2.1,
    by rw [Nat.sub_self]; exact Nat.dvd_zero _⟩

theorem Holds.exists_missed (h : Holds f c) (hwell : f.WellFormed) (htwice : f.TwoSundays) :
    ∃ now < 2 ^ 64, f.Due now ∧ c.matchesMinute now = false := by
  have hparts : ∀ p ∈ f.parts, ∃ lo hi step, Part p.2.1 p.2.2 p.1 lo hi step := hwell
  rw [Fields.parts, forall_mem_append, forall_mem_append, forall_mem_append,
    forall_mem_append] at hparts
  obtain ⟨hminute, hhour, -, hmonth, -⟩ := hparts
  obtain ⟨minute, hminute⟩ := exists_lists (by decide) hminute
  obtain ⟨hour, hhour⟩ := exists_lists (by decide) hhour
  obtain ⟨month, hmonth⟩ := exists_lists (by decide) hmonth
  obtain ⟨hday, hzero, hseven, missing, hin, hone⟩ := htwice
  have hoff : ¬ f.OnWeekday missing := by
    rintro (hw | ⟨rfl, -⟩)
    · exact (hone missing hin.1 hin.2).mpr rfl hw
    · exact absurd hin.1 (by decide)
  have hweek : f.WeekRestricted := ⟨missing, by omega, hoff⟩
  -- a day of the month that every month has, and a day of the week, of which one is listed
  obtain ⟨day, weekday, hd, hw, hor, hand⟩ : ∃ day weekday, (1 ≤ day ∧ day ≤ 28) ∧ weekday < 7 ∧
      (Lists 1 31 f.day day ∨ f.OnWeekday weekday) ∧
      ¬ (Lists 1 31 f.day day ∧ f.OnWeekday weekday) := by
    by_cases hlisted : ∃ day, (1 ≤ day ∧ day ≤ 28) ∧ Lists 1 31 f.day day
    · obtain ⟨day, hd, hlist⟩ := hlisted
      exact ⟨day, missing, hd, by omega, .inl hlist, fun hboth => hoff hboth.2⟩
    · exact ⟨1, 0, by decide, by decide, .inr (.inl hzero), fun hboth =>
        hlisted ⟨1, by decide, hboth.1⟩⟩
  obtain ⟨n, hn, hmonth', hday', hweekday'⟩ := Calendar.exists_day (hmonth.bounds (by decide)) hd hw
  have hhour' := (hhour.bounds (by decide)).2
  have hminute' := (hminute.bounds (by decide)).2
  obtain ⟨now, hnow⟩ : ∃ now, now = n * 86400 + hour * 3600 + minute * 60 := ⟨_, rfl⟩
  have hdays : now / 86400 = n := by omega
  have hhours : now / 3600 % 24 = hour := by omega
  have hminutes : now / 60 % 60 = minute := by omega
  refine ⟨now, by omega, ?_, ?_⟩
  · rw [Fields.Due, hdays, hhours, hminutes, hmonth', hday', hweekday']
    exact ⟨hmonth, ⟨fun _ => hor, fun hn => absurd ⟨hday, hweek⟩ hn⟩, hhour, hminute⟩
  · rw [← Bool.not_eq_true, h.matchesMinute_iff, hdays, hday', hweekday']
    rintro ⟨-, ⟨-, hboth⟩, -⟩
    exact hand (hboth fun hr => hr.2 ⟨hday, hzero, hseven, missing, hin, hone⟩)

end Held

/-- **Which specs are parsed and matched as cron means them.** -/
theorem cron_exact_iff (spec : String) :
    CronSpec.Exact spec ↔ ∀ f, fieldsOf spec = some f → f.Plain := by
  cases hf : fieldsOf spec with
  | none =>
    refine iff_of_true ?_ fun f h => (by cases h)
    have hnone : CronSpec.parse spec = none ∧ CronSpec.parseChecked spec = some none := by
      unfold fieldsOf at hf
      split at hf
      · cases hf
      · next hother =>
        unfold CronSpec.parse CronSpec.parseChecked
        constructor
        all_goals
          split
          · next heq => exact absurd heq (hother _ _ _ _ _)
          · rfl
    refine ⟨by rw [hnone.1, hnone.2], ?_, fun c f h => ?_⟩
    · rw [hnone.1, hf]
      refine iff_of_false Bool.false_ne_true ?_
      rintro ⟨f, h, -⟩
      cases h
    · rw [hnone.1] at h
      cases h
  | some f =>
    constructor
    · rintro hexact f' ⟨⟩
      have hsteady := (CronSpec.returns_iff hf).mp hexact.returns
      refine ⟨hsteady, fun hwell => ?_⟩
      have hsome := hexact.accepts.mpr ⟨f, hf, hwell⟩
      have hreads := (CronSpec.isSome_parse hf).mp hsome
      refine ⟨(f.reads_iff.mp hreads).2, fun htwice => ?_⟩
      obtain ⟨c, hc⟩ := Option.isSome_iff_exists.mp hsome
      obtain ⟨now, hnow, hdue, hmissed⟩ :=
        (holds_of_parse hf (hsteady.fits hreads) hc).exists_missed hwell htwice
      rw [(hexact.due c f hc hf now hnow).mpr hdue] at hmissed
      cases hmissed
    · intro hplain
      obtain ⟨hsteady, hrest⟩ := hplain f rfl
      refine ⟨(CronSpec.returns_iff hf).mpr hsteady, ?_, fun c f' hc hf' now _ => ?_⟩
      · rw [CronSpec.isSome_parse hf, f.reads_iff]
        constructor
        · exact fun h => ⟨f, hf, h.1⟩
        · rintro ⟨f', hf', hwell⟩
          rw [hf] at hf'
          cases hf'
          exact ⟨hwell, (hrest hwell).1⟩
      · rw [hf] at hf'
        cases hf'
        have hreads := (CronSpec.isSome_parse hf).mp (by rw [hc]; rfl)
        exact (holds_of_parse hf (hsteady.fits hreads) hc).matches_iff_due
          (hrest (f.reads_iff.mp hreads).1).2 now

/-- The first sum is no `u32`; and the first of a month that is a Monday is missed. -/
theorem cron_inexact : ¬ CronSpec.Exact "1/4294967295 * * * *" ∧ ¬ CronSpec.Exact "0 0 1 * 0,2-7" := by
  constructor
  · intro hexact
    have hpanics : CronSpec.parseChecked "1/4294967295 * * * *" = none := by decide +kernel
    rw [hexact.returns] at hpanics
    cases hpanics
  · intro hexact
    have hf : fieldsOf "0 0 1 * 0,2-7" = some ⟨"0", "0", "1", "*", "0,2-7"⟩ := by decide +kernel
    obtain ⟨c, hc, hday, hweekday⟩ : ∃ c, CronSpec.parse "0 0 1 * 0,2-7" = some c ∧ c.day = [1] ∧
        c.weekday = [7, 6, 5, 4, 3, 2, 0] := by
      refine ⟨⟨[0], [0], [1], [12, 11, 10, 9, 8, 7, 6, 5, 4, 3, 2, 1], [7, 6, 5, 4, 3, 2, 0]⟩, ?_, rfl, rfl⟩
      decide +kernel
    have hreads := (CronSpec.isSome_parse hf).mp (by rw [hc]; rfl)
    have hholds := holds_of_parse hf (((CronSpec.returns_iff hf).mp hexact.returns).fits hreads) hc
    have htwice : Fields.TwoSundays ⟨"0", "0", "1", "*", "0,2-7"⟩ := by
      refine ⟨⟨2, by decide, ?_⟩, ?_, ?_, 1, by decide, fun x hx hx' => ?_⟩
      · rw [← hholds.day.2, hday]
        decide
      · rw [← hholds.weekday.2, hweekday]
        decide
      · rw [← hholds.weekday.2, hweekday]
        decide
      · rw [← hholds.weekday.2, hweekday]
        interval_cases x
        all_goals decide
    obtain ⟨now, hnow, hdue, hmissed⟩ :=
      hholds.exists_missed (Fields.reads_iff _ |>.mp hreads).1 htwice
    rw [(hexact.due c _ hc hf now hnow).mpr hdue] at hmissed
    cases hmissed

end Automations

end Modbit
