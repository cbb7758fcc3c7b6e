/-! Days of the proleptic Gregorian calendar from year 1 to year 9999. -/

namespace DocStore

def isLeapYear (y : Nat) : Bool := y % 4 == 0 && (y % 100 != 0 || y % 400 == 0)

def daysInMonth (y m : Nat) : Nat :=
  if m = 2 then if isLeapYear y then 29 else 28
  else if m = 4 ∨ m = 6 ∨ m = 9 ∨ m = 11 then 30
  else 31

structure Date where
  year : Nat
  month : Nat
  day : Nat
  year_mem : 1 ≤ year ∧ year ≤ 9999 := by decide
  month_mem : 1 ≤ month ∧ month ≤ 12 := by decide
  day_mem : 1 ≤ day ∧ day ≤ daysInMonth year month := by decide
  deriving DecidableEq

namespace Date

def startOfYear (year : Nat) (h : 1 ≤ year ∧ year ≤ 9999) : Date :=
  ⟨year, 1, 1, h, by decide, by simp [daysInMonth]⟩

instance : Inhabited Date := ⟨startOfYear 1 (by decide)⟩

def ofFields? (year month day : Nat) : Option Date :=
  if hy : 1 ≤ year ∧ year ≤ 9999 then
    if hm : 1 ≤ month ∧ month ≤ 12 then
      if hd : 1 ≤ day ∧ day ≤ daysInMonth year month then some ⟨year, month, day, hy, hm, hd⟩
      else none
    else none
  else none

def daysBeforeYear (y : Nat) : Nat :=
  let p := y - 1
  365 * p + p / 4 - p / 100 + p / 400

def daysBeforeMonth (y : Nat) : Nat → Nat
  | 0 => 0
  | 1 => 0
  | m + 2 => daysBeforeMonth y (m + 1) + daysInMonth y (m + 1)

def ordinal (d : Date) : Nat := daysBeforeYear d.year + daysBeforeMonth d.year d.month + d.day

/-- Day of the week of an ordinal, Monday being 0. -/
def weekday (ordinal : Nat) : Nat := (ordinal + 6) % 7

/-- The month and day of the `n`-th day counted from month `m`, looking at `fuel` months. -/
def splitDays (y : Nat) : Nat → Nat → Nat → Nat × Nat
  | 0, m, n => (m, n)
  | fuel + 1, m, n =>
    if n ≤ daysInMonth y m then (m, n) else splitDays y fuel (m + 1) (n - daysInMonth y m)

def nearYear? (y : Nat) (ordinal : Int) : Option Date :=
  let start : Int := daysBeforeYear y
  let length : Int := if isLeapYear y then 366 else 365
  if ordinal ≤ start then
    let (m, d) := splitDays (y - 1) 11 1 (ordinal - daysBeforeYear (y - 1)).toNat
    ofFields? (y - 1) m d
  else if ordinal ≤ start + length then
    let (m, d) := splitDays y 11 1 (ordinal - start).toNat
    ofFields? y m d
  else
    let (m, d) := splitDays (y + 1) 11 1 (ordinal - start - length).toNat
    ofFields? (y + 1) m d

/-- Ordinal of the Monday of the first week, the week that holds the first Thursday. -/
def firstMonday (y : Nat) : Int :=
  let first := daysBeforeYear y + 1
  let wd := weekday first
  (first : Int) - wd + if 3 < wd then 7 else 0

def hasWeek53 (y : Nat) : Bool :=
  let wd := weekday (daysBeforeYear y + 1)
  wd == 3 || (wd == 2 && isLeapYear y)

/-- The day of a week of a year, weeks starting on Monday as day 1. -/
def ofWeek? (year week day : Nat) : Option Date :=
  if year = 0 then none
  else if 1 ≤ week ∧ (week ≤ 52 ∨ (week = 53 ∧ hasWeek53 year)) ∧ 1 ≤ day ∧ day ≤ 7 then
    nearYear? year (firstMonday year + ((week - 1) * 7 + (day - 1) : Nat))
  else none

end Date

end DocStore
