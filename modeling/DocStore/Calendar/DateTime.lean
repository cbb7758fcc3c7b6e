import DocStore.Calendar.Date

/-! Points in time: a day, a time of that day to the microsecond, and the distance from universal
time if it is known. -/

namespace DocStore

/-- A distance from universal time in microseconds, less than a day either way. -/
structure Offset where
  micros : Int
  within : micros.natAbs < 86400000000 := by decide
  deriving DecidableEq

namespace Offset

def ofMicros? (n : Int) : Option Offset :=
  if h : n.natAbs < 86400000000 then some ⟨n, h⟩ else none

end Offset

structure DateTime where
  date : Date
  hour : Nat
  minute : Nat
  second : Nat
  micro : Nat
  offset : Option Offset
  hour_lt : hour < 24 := by decide
  minute_lt : minute < 60 := by decide
  second_lt : second < 60 := by decide
  micro_lt : micro < 1000000 := by decide
  deriving DecidableEq

namespace DateTime

instance : Inhabited DateTime := ⟨⟨default, 0, 0, 0, 0, none, by decide, by decide, by decide,
  by decide⟩⟩

def ofFields? (date : Date) (hour minute second micro : Nat) (offset : Option Offset) :
    Option DateTime :=
  if hh : hour < 24 then
    if hm : minute < 60 then
      if hs : second < 60 then
        if hu : micro < 1000000 then
          some ⟨date, hour, minute, second, micro, offset, hh, hm, hs, hu⟩
        else none
      else none
    else none
  else none

def midnight (d : Date) : DateTime :=
  ⟨d, 0, 0, 0, 0, none, by decide, by decide, by decide, by decide⟩

/-- Microseconds on the clock since the day before year 1. -/
def localMicros (t : DateTime) : Int :=
  (((t.date.ordinal * 24 + t.hour) * 60 + t.minute) * 60 + t.second : Nat) * 1000000 + t.micro

def utcMicros (t : DateTime) : Int :=
  t.localMicros - (t.offset.map Offset.micros).getD 0

/-- Two points in time are ordered only if both or neither know their offset. -/
def compare (a b : DateTime) : Option Ordering :=
  if a.offset.isSome = b.offset.isSome then some (Ord.compare a.utcMicros b.utcMicros) else none

end DateTime

end DocStore
