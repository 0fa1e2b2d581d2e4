import Modbit.Lib.Text
import Mathlib.Data.List.Defs

/-!
# Cron specs and minutes

A cron spec has five fields, each a set of numbers written as a comma-separated list of ranges
with an optional step.  The minute of a clock value is taken apart in UTC (`civilFromEpoch`) and
compared field by field; its key (`minuteKey`) is what an automation remembers of its last fire.
-/

namespace Modbit

open Lib

namespace Automations

/-! ### The calendar -/

structure Civil where
  year : Nat
  month : Nat
  day : Nat
  hour : Nat
  minute : Nat
  /-- Sunday is 0. -/
  weekday : Nat
  deriving DecidableEq

/-- Days since the epoch are counted from the first of March of the year 0. -/
def civilFromEpoch (epochSecs : Nat) : Civil :=
  let days := epochSecs / 86400
  let secs := epochSecs % 86400
  let z := days + 719468
  let era := z / 146097
  let doe := z % 146097
  let yoe := (doe - doe / 1460 + doe / 36524 - doe / 146096) / 365
  let doy := doe - (365 * yoe + yoe / 4 - yoe / 100)
  let mp := (5 * doy + 2) / 153
  let m := if mp < 10 then mp + 3 else mp - 9
  let y := yoe + era * 400
  { year := (if m ≤ 2 then y + 1 else y) % 2 ^ 32
    month := m
    day := doy - (153 * mp + 2) / 5 + 1
    hour := secs / 3600
    minute := secs % 3600 / 60
    weekday := (days + 4) % 7 }

def padded (width n : Nat) : List Char := List.leftpad width '0' (Nat.toDigits 10 n)

/-- `YYYYMMDDHHmm`. -/
def minuteKey (nowEpochSecs : Nat) : String :=
  let c := civilFromEpoch (nowEpochSecs - nowEpochSecs % 60)
  String.ofList (padded 4 c.year ++ padded 2 c.month ++ padded 2 c.day ++ padded 2 c.hour
    ++ padded 2 c.minute)

example : minuteKey 1789130045 = "202609111234" := by decide +kernel

/-! ### Fields -/

/-- The values from `v` to `hi`; the sum is one of `u32`, and wraps. -/
def expand (hi step : Nat) : Nat → Nat → List Nat → List Nat
  | 0, _, values => values
  | fuel + 1, v, values =>
    if v ≤ hi then expand hi step fuel ((v + step) % 2 ^ 32) (values.insert v) else values

def parseStep (part : List Char) : Option (List Char × Nat) :=
  match Text.splitOnce '/' part with
  | some (r, s) => ((Text.parseU32 s).filter (0 < ·)).map (fun step => (r, step.toNat))
  | none => some (part, 1)

def parseRange (range : List Char) (min max : Nat) : Option (Nat × Nat) :=
  if range = ['*'] then some (min, max)
  else
    match Text.splitOnce '-' range with
    | some (a, b) =>
      (Text.parseU32 a).bind (fun lo => (Text.parseU32 b).map (fun hi => (lo.toNat, hi.toNat)))
    | none => (Text.parseU32 range).map (fun v => (v.toNat, v.toNat))

def parsePart (part : List Char) (min max : Nat) : Option (Nat × Nat × Nat) :=
  (parseStep part).bind (fun (range, step) => (parseRange range min max).bind (fun (lo, hi) =>
    if lo < min ∨ hi > max ∨ lo > hi then none else some (lo, hi, step)))

def parseField (spec : String) (min max : Nat) : Option (List Nat) :=
  (spec.toList.splitOn ',').foldlM (fun values part => do
    let (lo, hi, step) ← parsePart part min max
    pure (expand hi step (hi + 2) lo values)) []

structure CronSpec where
  minute : List Nat
  hour : List Nat
  day : List Nat
  month : List Nat
  weekday : List Nat
  deriving DecidableEq

namespace CronSpec

def parse (spec : String) : Option CronSpec :=
  match Text.splitWhitespace spec with
  | [minute, hour, day, month, weekday] => do
    let minute ← parseField minute 0 59
    let hour ← parseField hour 0 23
    let day ← parseField day 1 31
    let month ← parseField month 1 12
    let weekday ← parseField weekday 0 7
    pure ⟨minute, hour, day, month, weekday⟩
  | _ => none

/-- Where the days of the month and of the week are both restricted, either may match. -/
def matchesMinute (spec : CronSpec) (epochSecs : Nat) : Bool :=
  let c := civilFromEpoch (epochSecs - epochSecs % 60)
  let dayRestricted := spec.day.length ≠ 31 ∨ spec.month.length ≠ 12
  let dayOk := spec.day.contains c.day
  let dowOk := spec.weekday.contains c.weekday || (c.weekday == 0 && spec.weekday.contains 7)
  let domDow := if dayRestricted ∧ spec.day.length < 31 ∧ spec.weekday.length < 7 then dayOk || dowOk
    else dayOk && dowOk
  spec.month.contains c.month && domDow && spec.hour.contains c.hour && spec.minute.contains c.minute

end CronSpec

example : (CronSpec.parse "0 9 * * 1-5").map (·.matchesMinute 1788771600) = some true := by
  decide +kernel

end Automations

end Modbit
