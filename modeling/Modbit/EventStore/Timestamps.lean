import Modbit.Automation.Cron
import Modbit.Lib.Calendar
import Modbit.Lib.Utf8
import Mathlib.Data.String.Basic

/-!
# Timestamps

`utc_millis_to_rfc3339` in `crates/event-store/src/commands.rs` prints a clock value, and
`rfc3339_to_timestamp` in `crates/core-runtime/src/surface.rs` reads it back.  `epoch_to_amz_date`
in `crates/event-store/src/object_store.rs` and `civil_from_epoch` of the automation engine take a
second apart in the same way, but for the type of the year.

`timestamps_law`: of the years 0 to 9999 the printed text is the date and the time, is read back as
the clock value, and is in the order of the clock values; the two others agree while the year has 32
bits.
-/

namespace Modbit.Timestamps

open Lib Calendar Automations List

/-! ### The program -/

structure CivilDate where
  year : Int
  month : Int
  day : Int
  deriving DecidableEq

/-- The date of a day since the epoch, as both formatters compute it. -/
def civilOfDays (days : Int) : CivilDate :=
  let z := days + 719468
  let era := z / 146097
  let doe := z % 146097
  let yoe := (doe - doe / 1460 + doe / 36524 - doe / 146096) / 365
  let y := yoe + era * 400
  let doy := doe - (365 * yoe + yoe / 4 - yoe / 100)
  let mp := (5 * doy + 2) / 153
  let d := doy - (153 * mp + 2) / 5 + 1
  let m := if mp < 10 then mp + 3 else mp - 9
  ⟨if m ≤ 2 then y + 1 else y, m, d⟩

/-- A number with zeros before it; a sign is counted too. -/
def paddedInt (width : Nat) (v : Int) : List Char :=
  if v < 0 then '-' :: padded (width - 1) v.natAbs else padded width v.natAbs

def utcMillisToRfc3339 (millis : Int) : String :=
  let secs := millis / 1000
  let ms := millis % 1000
  let date := civilOfDays (secs / 86400)
  let secsOfDay := secs % 86400
  String.ofList (paddedInt 4 date.year ++ '-' :: (paddedInt 2 date.month ++ '-' ::
    (paddedInt 2 date.day ++ 'T' :: (paddedInt 2 (secsOfDay / 3600) ++ ':' ::
    (paddedInt 2 (secsOfDay % 3600 / 60) ++ ':' :: (paddedInt 2 (secsOfDay % 60) ++ '.' ::
    (paddedInt 3 ms ++ ['Z'])))))))

def epochToAmzDate (secs : Nat) : String :=
  let date := civilOfDays ((secs / 86400 : Nat) : Int)
  let rem := secs % 86400
  String.ofList (paddedInt 4 date.year ++ paddedInt 2 date.month ++ paddedInt 2 date.day ++ 'T' ::
    (padded 2 (rem / 3600) ++ padded 2 (rem % 3600 / 60) ++ padded 2 (rem % 60) ++ ['Z']))

structure Timestamp where
  seconds : Int
  nanos : Int
  deriving DecidableEq

/-- A slice of the bytes, if it is a text, as a number. -/
def num (bytes : List UInt8) (start stop : Nat) : Option Int :=
  (Utf8.decode ((bytes.take stop).drop start)).bind Text.parseI64

def daysFromCivil (year month day : Int) : Int :=
  let y := if month ≤ 2 then year - 1 else year
  let era := y / 400
  let yoe := y - era * 400
  let mp := if month > 2 then month - 3 else month + 9
  let doy := (153 * mp + 2) / 5 + day - 1
  let doe := yoe * 365 + yoe / 4 - yoe / 100 + doy
  era * 146097 + doe - 719468

/-- Three bytes are no more than 999 milliseconds, for which an `i32` has room. -/
def rfc3339ToTimestamp (s : String) : Timestamp :=
  let bytes := Utf8.encode s.toList
  if bytes.length ≠ 24 ∨ s.toList.getLast? ≠ some 'Z' then ⟨0, 0⟩
  else (do
    let year ← num bytes 0 4
    let month ← num bytes 5 7
    let day ← num bytes 8 10
    let hh ← num bytes 11 13
    let mm ← num bytes 14 16
    let ss ← num bytes 17 19
    let ms ← num bytes 20 23
    some ⟨daysFromCivil year month day * 86400 + hh * 3600 + mm * 60 + ss, ms * 1000000⟩ :
      Option Timestamp).getD ⟨0, 0⟩

/-! ### Numbers with zeros before them -/

variable {width : Nat}

theorem padded_succ (hwidth : 1 ≤ width) (n : Nat) :
    padded (width + 1) n = padded width (n / 10) ++ [(n % 10).digitChar] := by
  by_cases hn : n < 10
  · obtain ⟨k, rfl⟩ := Nat.exists_eq_add_of_le' hwidth
    rw [padded, padded, Nat.toDigits_of_lt_base hn, Nat.div_eq_of_lt hn, Nat.toDigits_zero,
      Nat.mod_eq_of_lt hn]
    simp [List.leftpad, replicate_succ']
  · rw [padded, padded, Nat.toDigits_of_base_le (by decide) (Nat.le_of_not_lt hn)]
    simp [List.leftpad]

variable {n : Nat}

theorem padded_one (hn : n < 10) : padded 1 n = [n.digitChar] := by
  rw [padded, Nat.toDigits_of_lt_base hn]
  rfl

theorem value_padded (width n : Nat) : Nat.ofDigitChars 10 (padded width n) 0 = n := by
  rw [padded, List.leftpad, Nat.ofDigitChars_append, Nat.ofDigitChars_replicate_zero, Nat.mul_zero,
    Nat.ofDigitChars_ten_toDigits]

theorem isDigit_padded (width n : Nat) : ∀ c ∈ padded width n, c.isDigit = true := by
  intro c hc
  rcases mem_append.mp hc with hc | hc
  · rw [eq_of_mem_replicate hc]
    rfl
  · exact Nat.isDigit_of_mem_toDigits (by decide) (by decide) hc

theorem length_padded (hwidth : 1 ≤ width) (hn : n < 10 ^ width) :
    (padded width n).length = width := by
  have hle := (Nat.length_toDigits_le_iff (b := 10) (by decide) hwidth).mpr hn
  rw [padded, length_leftpad]
  exact Nat.max_eq_left hle

/-- **Numbers of one width compare as their texts**, and what follows decides among equals. -/
theorem padded_lt_iff (hwidth : 1 ≤ width) :
    ∀ {n n' : Nat} {rest rest' : List Char}, n < 10 ^ width → n' < 10 ^ width →
      (padded width n ++ rest < padded width n' ++ rest' ↔ n < n' ∨ n = n' ∧ rest < rest') := by
  have hdigit : ∀ d < 10, ∀ d' < 10,
      (Nat.digitChar d < Nat.digitChar d' ↔ d < d') ∧
        (Nat.digitChar d = Nat.digitChar d' ↔ d = d') := by
    decide
  induction width, hwidth using Nat.le_induction with
  | base =>
    intro n n' rest rest' hn hn'
    obtain ⟨hlt, heq⟩ := hdigit n hn n' hn'
    rw [padded_one hn, padded_one hn', singleton_append, singleton_append,
      cons_lt_cons_iff, hlt, heq]
  | succ width hwidth ih =>
    intro n n' rest rest' hn hn'
    rw [Nat.pow_succ] at hn hn'
    obtain ⟨hlt, heq⟩ := hdigit (n % 10) (by omega) (n' % 10) (by omega)
    rw [padded_succ hwidth, padded_succ hwidth, append_assoc, append_assoc,
      ih (by omega) (by omega), singleton_append, singleton_append, cons_lt_cons_iff, hlt, heq]
    constructor
    · rintro (h | ⟨h, h' | ⟨h', hrest⟩⟩)
      · exact .inl (by omega)
      · exact .inl (by omega)
      · exact .inr ⟨by omega, hrest⟩
    · rintro (h | ⟨rfl, hrest⟩)
      · by_cases hten : n / 10 < n' / 10
        · exact .inl hten
        · exact .inr ⟨by omega, .inl (by omega)⟩
      · exact .inr ⟨rfl, .inr ⟨rfl, hrest⟩⟩

theorem parse_padded (width : Nat) (hn : n < 2 ^ 63) :
    Text.parseI64 (padded width n) = some (n : Int) := by
  have hvalue := value_padded width n
  have hne : padded width n ≠ [] := append_ne_nil_of_right_ne_nil _ Nat.toDigits_ne_nil
  have hparse := Text.parseI64_digits hne (isDigit_padded width n) (hvalue.symm ▸ hn)
  rwa [hvalue] at hparse

/-! ### The calendar -/

/-- In numbers, what `civil` makes of a day of an era. -/
theorem civilOfDays_era {n e era yoe doy mp : Nat} (he : (n + 146037) % 146097 = e)
    (hera : (n + 146037) / 146097 = era)
    (hyoe : (e - e / 1460 + e / 36524 - e / 146096) / 365 = yoe)
    (hdoy : e - (365 * yoe + yoe / 4 - yoe / 100) = doy) (hmp : (5 * doy + 2) / 153 = mp)
    (hfirst : 365 * yoe + yoe / 4 - yoe / 100 ≤ e) :
    civilOfDays ((n : Int) - 719528) =
      let m : Int := if mp < 10 then mp + 3 else mp - 9
      ⟨(if m ≤ 2 then (yoe : Int) + (era - 1) * 400 + 1 else yoe + (era - 1) * 400), m,
        (doy : Int) - (153 * mp + 2) / 5 + 1⟩ := by
  have hz : ((n : Int) - 719528 + 719468) / 146097 = era - 1 := by omega
  have hdoe : ((n : Int) - 719528 + 719468) % 146097 = e := by omega
  have hyoe' : ((e : Int) - e / 1460 + e / 36524 - e / 146096) / 365 = yoe := by omega
  have hdoy' : (e : Int) - (365 * yoe + yoe / 4 - yoe / 100) = doy := by omega
  have hmp' : (5 * (doy : Int) + 2) / 153 = mp := by omega
  have hlt : ((mp : Int) < 10) = (mp < 10) := by
    rw [show (10 : Int) = ((10 : Nat) : Int) from rfl, Int.ofNat_lt]
  simp only [civilOfDays, hz, hdoe, hyoe', hdoy', hmp', hlt]

theorem civilOfDays_eq (n : Nat) : civilOfDays ((n : Int) - 719528)
    = ⟨(dateFrom n).year, (dateFrom n).month, (dateFrom n).day⟩ := by
  obtain ⟨hyear, hfirst, -⟩ := yearOfEra_spec (Nat.mod_lt (n + 146037) (by decide : 0 < 146097))
  rw [firstDay, Nat.div_eq_of_lt hyear, Nat.add_zero] at hfirst
  have hmp : (5 * dayOf (n + 146037) + 2) / 153 = monthOf (dayOf (n + 146037)) := rfl
  rw [civilOfDays_era rfl rfl (rfl : _ = yearOfEra ((n + 146037) % 146097))
    (rfl : _ = dayOf (n + 146037)) hmp hfirst]
  obtain ⟨hy, hm, hd⟩ := Date.mk.inj (civil_dateFrom n)
  rw [yearOf, monthNumber] at hy
  rw [monthNumber] at hm
  rw [dayOfMonth] at hd
  generalize dateFrom n = d at hy hm hd ⊢
  generalize dayOf (n + 146037) = doy at hmp hy hm hd ⊢
  generalize monthOf doy = mp at hmp hy hm hd ⊢
  rw [CivilDate.mk.injEq, ← hm, ← hd]
  refine ⟨?_, ?_, by omega⟩
  · split_ifs at hy ⊢
    all_goals omega
  · split_ifs
    all_goals omega

theorem daysFromCivil_eq (n : Nat) :
    daysFromCivil (dateFrom n).year (dateFrom n).month (dateFrom n).day = (n : Int) - 719528 := by
  obtain ⟨hday, hlt⟩ := yearOf_spec (n + 146037)
  have hleap := leap_le_one (yearOf (n + 146037) + 1)
  have hmp : (5 * dayOf (n + 146037) + 2) / 153 = monthOf (dayOf (n + 146037)) := rfl
  obtain ⟨hy, hm, hd⟩ := Date.mk.inj (civil_dateFrom n)
  rw [monthNumber] at hy hm
  rw [dayOfMonth] at hd
  rw [firstDay] at hday
  generalize dateFrom n = d at hy hm hd ⊢
  generalize dayOf (n + 146037) = doy at hday hlt hmp hy hm hd ⊢
  generalize yearOf (n + 146037) = year at hday hlt hleap hy
  generalize monthOf doy = mp at hmp hy hm hd ⊢
  have hyear :
      (if (d.month : Int) ≤ 2 then (d.year : Int) - 1 else d.year) = (year : Int) - 400 := by
    split_ifs at hy hm ⊢
    all_goals omega
  have hmonth : (if (d.month : Int) > 2 then (d.month : Int) - 3 else d.month + 9) = mp := by
    split_ifs at hm ⊢
    all_goals omega
  have hera : ((year : Int) - 400) / 400 = (year / 400 : Nat) - 1 := by omega
  have hquarter : year / 4 = 100 * (year / 400) + year % 400 / 4 := by omega
  have hcentury : year / 100 = 4 * (year / 400) + year % 400 / 100 := by omega
  simp only [daysFromCivil, hyear, hmonth, hera]
  omega

/-! ### What is printed -/

def dateText (d : Date) (rest : List Char) : List Char :=
  padded 4 d.year ++ '-' :: (padded 2 d.month ++ '-' :: (padded 2 d.day ++ rest))

def timeText (t : Nat) : List Char :=
  padded 2 (t / 3600000) ++ ':' :: (padded 2 (t % 3600000 / 60000) ++ ':' ::
    (padded 2 (t % 60000 / 1000) ++ '.' :: (padded 3 (t % 1000) ++ ['Z'])))

def textOf (d : Date) (t : Nat) : List Char := dateText d ('T' :: timeText t)

/-- The day since the first of January of the year 0. -/
def dayNumber (millis : Int) : Nat := (millis / 86400000 + 719528).toNat

def timeOfDay (millis : Int) : Nat := (millis % 86400000).toNat

structure Dated (millis : Int) : Prop where
  from_zero : -719528 ≤ millis / 86400000
  year_le : (dateFrom (dayNumber millis)).year ≤ 9999

variable {millis : Int}

theorem millis_eq (h : Dated millis) :
    millis = ((dayNumber millis : Int) - 719528) * 86400000 + timeOfDay millis
      ∧ timeOfDay millis < 86400000 := by
  have hfrom := h.from_zero
  rw [dayNumber, timeOfDay]
  omega

theorem paddedInt_natCast (width n : Nat) : paddedInt width n = padded width n := by
  rw [paddedInt, if_neg (by omega), Int.natAbs_natCast]

theorem toList_rfc3339 (h : Dated millis) : (utcMillisToRfc3339 millis).toList
      = textOf (dateFrom (dayNumber millis)) (timeOfDay millis) := by
  obtain ⟨hmillis, htime⟩ := millis_eq h
  generalize dayNumber millis = n at hmillis ⊢
  generalize timeOfDay millis = t at hmillis htime ⊢
  have hdays : millis / 1000 / 86400 = (n : Int) - 719528 := by omega
  have hhours : millis / 1000 % 86400 / 3600 = ((t / 3600000 : Nat) : Int) := by omega
  have hminutes : millis / 1000 % 86400 % 3600 / 60 = ((t % 3600000 / 60000 : Nat) : Int) := by
    omega
  have hseconds : millis / 1000 % 86400 % 60 = ((t % 60000 / 1000 : Nat) : Int) := by omega
  have hms : millis % 1000 = ((t % 1000 : Nat) : Int) := by omega
  simp only [utcMillisToRfc3339, hdays, civilOfDays_eq, hhours, hminutes, hseconds, hms,
    paddedInt_natCast, String.toList_ofList]
  rfl

/-! ### Reading it back -/

def Ascii (l : List Char) : Prop := ∀ c ∈ l, c.toNat < 0x80

theorem length_encode {l : List Char} (h : Ascii l) : (Utf8.encode l).length = l.length := by
  induction l with
  | nil => rfl
  | cons c l ih =>
    have hsize : c.utf8Size = 1 := Char.utf8Size_eq_one_iff.mpr
      (UInt32.le_iff_toNat_le.mpr (Nat.le_of_lt_succ (h c mem_cons_self)))
    rw [Utf8.encode, flatMap_cons, length_append, String.length_utf8EncodeChar, hsize,
      length_cons, Nat.add_comm]
    exact congrArg (· + 1) (ih (fun d hd => h d (mem_cons_of_mem c hd)))

theorem num_ascii {l : List Char} (h : Ascii l) {start stop : Nat} (hstart : start ≤ stop)
    (hstop : stop ≤ l.length) :
    num (Utf8.encode l) start stop = Text.parseI64 ((l.take stop).drop start) := by
  have hfirst : Ascii (l.take stop) := fun c hc => h c (mem_of_mem_take hc)
  have hsplit : Utf8.encode l = Utf8.encode (l.take stop) ++ Utf8.encode (l.drop stop) := by
    rw [← Utf8.encode_append, take_append_drop]
  have hlen : (Utf8.encode (l.take stop)).length = stop := by
    rw [length_encode hfirst, length_take, Nat.min_eq_left hstop]
  have hdecode := (Utf8.decode_drop_iff (t := l.take stop) (n := start) (hlen.symm ▸ hstart)).mpr
    ⟨(l.take stop).take start, (take_append_drop start _).symm, by
      rw [length_encode (fun c hc => hfirst c (mem_of_mem_take hc)), length_take,
        length_take, Nat.min_eq_left hstop, Nat.min_eq_left hstart]⟩
  rw [num, hsplit, take_left' hlen, hdecode]
  rfl

theorem ascii_textOf (d : Date) (t : Nat) : Ascii (textOf d t) := by
  have hdigits : ∀ {width n : Nat} {c : Char}, c ∈ padded width n → c.toNat < 0x80 := by
    intro width n c hc
    have hdigit := isDigit_padded width n c hc
    rw [Char.isDigit, Bool.and_eq_true, decide_eq_true_eq, decide_eq_true_eq] at hdigit
    exact Nat.lt_of_le_of_lt (UInt32.le_iff_toNat_le.mp hdigit.2) (by decide)
  intro c hc
  simp only [textOf, dateText, timeText, mem_append, mem_cons, not_mem_nil, or_false] at hc
  rcases hc with h | rfl | h | rfl | h | rfl | h | rfl | h | rfl | h | rfl | h | rfl
  all_goals first | exact hdigits h | decide

variable {d : Date}

theorem num_textOf {t start stop width v : Nat} (hlength : (textOf d t).length = 24)
    (hslice : ((textOf d t).take stop).drop start = padded width v)
    (hplace : start ≤ stop ∧ stop ≤ 24 := by decide) (hv : v < 2 ^ 63 := by omega) :
    num (Utf8.encode (textOf d t)) start stop = some (v : Int) := by
  rw [num_ascii (ascii_textOf d t) hplace.1 (hlength.symm ▸ hplace.2), hslice]
  exact parse_padded width hv

variable {t : Nat}

theorem read_textOf (hyear : d.year ≤ 9999) (hmonth : d.month < 100)
    (hday : d.day < 100) (htime : t < 86400000) :
    rfc3339ToTimestamp (String.ofList (textOf d t)) =
      ⟨daysFromCivil d.year d.month d.day * 86400 + ((t / 3600000 : Nat) : Int) * 3600
        + ((t % 3600000 / 60000 : Nat) : Int) * 60 + ((t % 60000 / 1000 : Nat) : Int),
        ((t % 1000 : Nat) : Int) * 1000000⟩ := by
  have htwo : ∀ {v}, v < 100 → ∃ a b, padded 2 v = [a, b] := fun hv =>
    length_eq_two.mp (length_padded (by decide) hv)
  obtain ⟨y₁, y₂, y₃, y₄, hY⟩ := length_eq_four.mp
    (length_padded (by decide) (show d.year < 10 ^ 4 by omega))
  obtain ⟨m₁, m₂, hM⟩ := htwo hmonth
  obtain ⟨d₁, d₂, hD⟩ := htwo hday
  obtain ⟨h₁, h₂, hH⟩ := htwo (show t / 3600000 < 100 by omega)
  obtain ⟨i₁, i₂, hI⟩ := htwo (show t % 3600000 / 60000 < 100 by omega)
  obtain ⟨s₁, s₂, hS⟩ := htwo (show t % 60000 / 1000 < 100 by omega)
  obtain ⟨x₁, x₂, x₃, hX⟩ := length_eq_three.mp
    (length_padded (by decide) (show t % 1000 < 10 ^ 3 by omega))
  have htext : textOf d t = [y₁, y₂, y₃, y₄, '-', m₁, m₂, '-', d₁, d₂, 'T', h₁, h₂, ':', i₁, i₂,
      ':', s₁, s₂, '.', x₁, x₂, x₃, 'Z'] := by
    rw [textOf, dateText, timeText, hY, hM, hD, hH, hI, hS, hX]
    rfl
  have hlength : (textOf d t).length = 24 := by
    rw [htext]
    rfl
  have hyears : num (Utf8.encode (textOf d t)) 0 4 = _ :=
    num_textOf hlength (by rw [htext]; exact hY.symm)
  have hmonths : num (Utf8.encode (textOf d t)) 5 7 = _ :=
    num_textOf hlength (by rw [htext]; exact hM.symm)
  have hdays : num (Utf8.encode (textOf d t)) 8 10 = _ :=
    num_textOf hlength (by rw [htext]; exact hD.symm)
  have hhours : num (Utf8.encode (textOf d t)) 11 13 = _ :=
    num_textOf hlength (by rw [htext]; exact hH.symm)
  have hminutes : num (Utf8.encode (textOf d t)) 14 16 = _ :=
    num_textOf hlength (by rw [htext]; exact hI.symm)
  have hseconds : num (Utf8.encode (textOf d t)) 17 19 = _ :=
    num_textOf hlength (by rw [htext]; exact hS.symm)
  have hms : num (Utf8.encode (textOf d t)) 20 23 = _ :=
    num_textOf hlength (by rw [htext]; exact hX.symm)
  have hbytes : (Utf8.encode (textOf d t)).length = 24 := by
    rw [length_encode (ascii_textOf d t), hlength]
  have hlast : (textOf d t).getLast? = some 'Z' := by
    rw [htext]
    rfl
  rw [rfc3339ToTimestamp, String.toList_ofList]
  -- The length and the final `Z` are checked first, then each number is read.
  rw [if_neg (by simp [hbytes, hlast]), hyears, hmonths, hdays, hhours, hminutes, hseconds, hms]
  rfl

theorem rfc3339_round_trip (h : Dated millis) :
    rfc3339ToTimestamp (utcMillisToRfc3339 millis) = ⟨millis / 1000, millis % 1000 * 1000000⟩ := by
  obtain ⟨hmillis, htime⟩ := millis_eq h
  obtain ⟨⟨-, hmonth⟩, -, hday⟩ := dateFrom_valid (dayNumber millis)
  have hlen := monthLength_le (dateFrom (dayNumber millis)).year (dateFrom (dayNumber millis)).month
  have hread := read_textOf h.year_le (by omega) (by omega) htime
  rw [← toList_rfc3339 h, String.ofList_toList, daysFromCivil_eq] at hread
  rw [hread, Timestamp.mk.injEq]
  omega

/-! ### The order of the texts -/

theorem dateText_lt_iff {d d' : Date} {rest rest' : List Char} (hyear : d.year ≤ 9999)
    (hyear' : d'.year ≤ 9999) (hmonth : d.month < 100) (hmonth' : d'.month < 100)
    (hday : d.day < 100) (hday' : d'.day < 100) :
    dateText d rest < dateText d' rest' ↔ Before d d' ∨ d = d' ∧ rest < rest' := by
  rw [dateText, dateText, padded_lt_iff (by decide) (by omega) (by omega), cons_lt_cons_self,
    padded_lt_iff (by decide) hmonth hmonth', cons_lt_cons_self,
    padded_lt_iff (by decide) hday hday', Before]
  cases d
  cases d'
  simp only [Date.mk.injEq]
  tauto

theorem timeText_lt_iff {t t' : Nat} (h : t < 86400000) (h' : t' < 86400000) :
    timeText t < timeText t' ↔ t < t' := by
  rw [timeText, timeText, padded_lt_iff (by decide) (by omega) (by omega), cons_lt_cons_self,
    padded_lt_iff (by decide) (by omega) (by omega), cons_lt_cons_self,
    padded_lt_iff (by decide) (by omega) (by omega), cons_lt_cons_self,
    padded_lt_iff (by decide) (by omega) (by omega)]
  have hend : ¬ ['Z'] < ['Z'] := lt_irrefl _
  simp only [hend, and_false, or_false]
  omega

/-- **The texts are in the order of the clock values.** -/
theorem rfc3339_lt_iff {millis millis' : Int} (h : Dated millis) (h' : Dated millis') :
    utcMillisToRfc3339 millis < utcMillisToRfc3339 millis' ↔ millis < millis' := by
  obtain ⟨hmillis, htime⟩ := millis_eq h
  obtain ⟨hmillis', htime'⟩ := millis_eq h'
  obtain ⟨⟨-, hmonth⟩, -, hday⟩ := dateFrom_valid (dayNumber millis)
  obtain ⟨⟨-, hmonth'⟩, -, hday'⟩ := dateFrom_valid (dayNumber millis')
  have hlen := monthLength_le (dateFrom (dayNumber millis)).year (dateFrom (dayNumber millis)).month
  have hlen' := monthLength_le (dateFrom (dayNumber millis')).year
    (dateFrom (dayNumber millis')).month
  rw [String.lt_iff_toList_lt, toList_rfc3339 h, toList_rfc3339 h', textOf, textOf,
    dateText_lt_iff h.year_le h'.year_le (by omega) (by omega) (by omega) (by omega),
    cons_lt_cons_self, timeText_lt_iff htime htime', before_iff, dateFrom_inj]
  omega

/-! ### Seconds -/

/-- The fields that the automation engine makes of a second, printed. -/
def AmzAgrees (secs : Nat) : Prop :=
  let c := civilFromEpoch secs
  (epochToAmzDate secs).toList = padded 4 c.year ++ padded 2 c.month ++ padded 2 c.day ++ 'T' ::
    (padded 2 c.hour ++ padded 2 c.minute ++ padded 2 (secs % 60) ++ ['Z'])

instance (secs : Nat) : Decidable (AmzAgrees secs) := inferInstanceAs (Decidable (_ = _))

theorem civilFromEpoch_eq (secs : Nat) : civilFromEpoch secs =
    ⟨(dateOf (secs / 86400)).year % 2 ^ 32, (dateOf (secs / 86400)).month,
      (dateOf (secs / 86400)).day, secs % 86400 / 3600, secs % 86400 % 3600 / 60,
      (secs / 86400 + 4) % 7⟩ := by
  rw [dateOf_eq_civil]
  rfl

theorem amzAgrees_iff (secs : Nat) : AmzAgrees secs ↔ (dateOf (secs / 86400)).year < 2 ^ 32 := by
  have hdays : ((secs / 86400 : Nat) : Int) = ((secs / 86400 + 719528 : Nat) : Int) - 719528 := by
    omega
  have hsecs : secs % 86400 % 60 = secs % 60 := by omega
  rw [AmzAgrees, epochToAmzDate, String.toList_ofList, hdays, civilOfDays_eq, dateFrom_dateOf,
    civilFromEpoch_eq]
  simp only [paddedInt_natCast, hsecs, append_assoc, append_cancel_right_eq]
  constructor
  · intro h
    have hvalue := congrArg (Nat.ofDigitChars 10 · 0) h
    simp only [value_padded] at hvalue
    rw [hvalue]
    exact Nat.mod_lt _ (by decide)
  · intro h
    rw [Nat.mod_eq_of_lt h]

/-- **Timestamps.**  A printed clock value is its date and time, is read back, and is in its place
in the order of the texts; the dates of a second agree while the year has 32 bits. -/
theorem timestamps_law :
    (∀ millis, Dated millis →
      (utcMillisToRfc3339 millis).toList
          = textOf (dateFrom (dayNumber millis)) (timeOfDay millis)
        ∧ rfc3339ToTimestamp (utcMillisToRfc3339 millis)
          = ⟨millis / 1000, millis % 1000 * 1000000⟩)
      ∧ (∀ n, (1 ≤ (dateFrom n).month ∧ (dateFrom n).month ≤ 12) ∧ 1 ≤ (dateFrom n).day
          ∧ (dateFrom n).day ≤ monthLength (dateFrom n).year (dateFrom n).month)
      ∧ (∀ millis millis', Dated millis → Dated millis' →
          (utcMillisToRfc3339 millis < utcMillisToRfc3339 millis' ↔ millis < millis'))
      ∧ ∀ secs, AmzAgrees secs ↔ (dateOf (secs / 86400)).year < 2 ^ 32 :=
  ⟨fun _ h => ⟨toList_rfc3339 h, rfc3339_round_trip h⟩, dateFrom_valid,
    fun _ _ h h' => rfc3339_lt_iff h h', amzAgrees_iff⟩

/-- The last millisecond of a leap day before the epoch. -/
theorem timestamps_law_leapDay :
    (utcMillisToRfc3339 (-57974400001)).toList = "1968-02-29T23:59:59.999Z".toList ∧
      rfc3339ToTimestamp (utcMillisToRfc3339 (-57974400001)) = ⟨-57974401, 999000000⟩ ∧
      utcMillisToRfc3339 (-57974400001) < utcMillisToRfc3339 0 := by
  have hday : dateFrom (dayNumber (-57974400001)) = ⟨1968, 2, 29⟩ := dateFrom_eq (by decide)
  have hleap : Dated (-57974400001) := ⟨by decide, by rw [hday]; decide⟩
  have hepoch : Dated 0 := ⟨by decide, dateFrom_epoch ▸ by decide⟩
  obtain ⟨hprinted, hread⟩ := timestamps_law.1 (-57974400001) hleap
  refine ⟨hprinted.trans ?_, hread, (timestamps_law.2.2.1 _ _ hleap hepoch).mpr (by decide)⟩
  rw [hday]
  rfl

/-- The first second of the year 4294967296. -/
theorem amz_year_truncated : ¬ AmzAgrees 135536014634284800 := by
  decide +kernel

end Modbit.Timestamps
