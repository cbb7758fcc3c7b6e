import DocStore.Calendar.DateTime

/-! The international standard text of days and points in time, written in its extended form and
read in the extended, basic and week forms. -/

namespace DocStore

namespace Iso

def pad (width n : Nat) : List Char :=
  let digits := Nat.toDigits 10 n
  List.replicate (width - digits.length) '0' ++ digits

def writeDate (d : Date) : List Char :=
  pad 4 d.year ++ '-' :: pad 2 d.month ++ '-' :: pad 2 d.day

/-- Seconds are left out of an offset that has none, microseconds likewise. -/
def writeOffset (o : Offset) : List Char :=
  let n := o.micros.natAbs
  let seconds := n / 1000000
  let sign := if o.micros < 0 then '-' else '+'
  let base := sign :: (pad 2 (seconds / 3600) ++ ':' :: pad 2 (seconds / 60 % 60))
  if n % 1000000 ≠ 0 then base ++ ':' :: pad 2 (seconds % 60) ++ '.' :: pad 6 (n % 1000000)
  else if seconds % 60 ≠ 0 then base ++ ':' :: pad 2 (seconds % 60)
  else base

def writeTime (t : DateTime) : List Char :=
  pad 2 t.hour ++ ':' :: pad 2 t.minute ++ ':' :: pad 2 t.second ++
    (if t.micro = 0 then [] else '.' :: pad 6 t.micro) ++
    (match t.offset with
      | none => []
      | some o => writeOffset o)

def writeDateTime (separator : Char) (t : DateTime) : List Char :=
  writeDate t.date ++ separator :: writeTime t

def digit? (c : Char) : Option Nat :=
  if '0' ≤ c ∧ c ≤ '9' then some (c.toNat - 48) else none

def isDigitChar (c : Char) : Bool := (digit? c).isSome

def readDigits : Nat → Nat → List Char → Option (Nat × List Char)
  | 0, acc, cs => some (acc, cs)
  | _ + 1, _, [] => none
  | n + 1, acc, c :: cs =>
    match digit? c with
    | some d => readDigits n (10 * acc + d) cs
    | none => none

/-- Takes the separator that dates in the extended form have between their parts. -/
def skipDash (extended : Bool) : List Char → Option (List Char)
  | [] => if extended then none else some []
  | c :: cs => if extended then if c = '-' then some cs else none else some (c :: cs)

/-- Reads the first `length` characters as a date; what follows them is not looked at. -/
def readDateIn (length : Nat) (cs : List Char) : Option Date := do
  let (year, r) ← readDigits 4 0 cs
  let extended := r.head? == some '-'
  let r := if extended then r.drop 1 else r
  if r.head? == some 'W' then
    let (week, r) ← readDigits 2 0 (r.drop 1)
    if (if extended then 8 else 7) < length then
      let r ← skipDash extended r
      let (day, _) ← readDigits 1 0 r
      Date.ofWeek? year week day
    else Date.ofWeek? year week 1
  else
    let (month, r) ← readDigits 2 0 r
    let r ← skipDash extended r
    let (day, _) ← readDigits 2 0 r
    Date.ofFields? year month day

/-- Dates are ten, eight or seven bytes long. -/
def readDate (cs : List Char) : Option Date :=
  let size := cs.foldl (fun n c => n + c.utf8Size) 0
  if size = 10 ∨ size = 8 ∨ size = 7 then readDateIn size cs else none

def dateLength (cs : List Char) : Nat :=
  let n := cs.length
  if n = 7 then 7
  else if cs[4]? = some '-' then
    if cs[5]? = some 'W' then
      if cs[8]? = some '-' then
        if 10 < n ∧ (cs[10]?.map isDigitChar) = some true then 8 else 10
      else 8
    else 10
  else if cs[4]? = some 'W' then
    let stop := 7 + ((cs.drop 7).takeWhile isDigitChar).length
    if stop < 9 then stop else if stop % 2 = 0 then 7 else 8
  else 8

structure Clock where
  hour : Nat
  minute : Nat
  second : Nat
  micro : Nat
  unread : Bool

/-- A fraction of a second: six digits count, further ones are dropped. -/
def readFraction (followed : Bool) (hour minute second : Nat) (cs : List Char) : Option Clock := do
  let count := min 6 cs.length
  let (value, r) ← readDigits count 0 cs
  let r := r.dropWhile isDigitChar
  return ⟨hour, minute, second, value * Nat.pow 10 (6 - count), followed || !r.isEmpty⟩

/-- Reads the parts of a time from the one numbered `3 - left`; `colons` says whether they are
separated, which the first separator decides. -/
def readParts (followed : Bool) (colons : Bool) :
    Nat → List Nat → List Char → Option Clock
  | 0, parts, cs =>
    readFraction followed (parts[0]?.getD 0) (parts[1]?.getD 0) (parts[2]?.getD 0) cs
  | left + 1, parts, cs =>
    match readDigits 2 0 cs with
    | none => none
    | some (value, r) =>
      let parts := parts ++ [value]
      let at_ := fun i => parts[i]?.getD 0
      match r with
      | [] => some ⟨at_ 0, at_ 1, at_ 2, 0, followed⟩
      | c :: r =>
        let colons := if left = 2 then c == ':' else colons
        if r.isEmpty then some ⟨at_ 0, at_ 1, at_ 2, 0, true⟩
        else if colons && c == ':' then readParts followed colons left parts r
        else if c = '.' ∨ c = ',' then readFraction followed (at_ 0) (at_ 1) (at_ 2) r
        else if colons then none
        else readParts followed colons left parts (c :: r)

def readClock (followed : Bool) (cs : List Char) : Option Clock := readParts followed true 3 [] cs

def isZoneStart (c : Char) : Bool := c == '+' || c == '-' || c == 'Z'

/-- A time of day with the offset after it, `Z` being the offset zero. -/
def readTime (cs : List Char) : Option (Clock × Option Offset) := do
  let body := cs.takeWhile fun c => !isZoneStart c
  match cs.dropWhile fun c => !isZoneStart c with
  | [] =>
    let clock ← readClock false body
    if clock.unread then none else some (clock, none)
  | sign :: zone =>
    let clock ← readClock true body
    if sign = 'Z' then
      if zone.isEmpty then some (clock, Offset.ofMicros? 0) else none
    else
      let z ← readClock false zone
      if z.unread then none
      else
        let seconds := z.hour * 3600 + z.minute * 60 + z.second
        let size : Int := seconds * 1000000 + z.micro
        let offset ←
          Offset.ofMicros? (if seconds = 0 then 0 else if sign = '-' then -size else size)
        some (clock, some offset)

/-- Reads a point in time; a date alone counts as its midnight. -/
def readDateTime (cs : List Char) : Option DateTime := do
  if cs.length < 7 then none
  else
    let date ← readDateIn (dateLength cs) cs
    match cs.drop (dateLength cs) with
    | [] => some (DateTime.midnight date)
    | _ :: rest =>
      let (clock, offset) ← readTime rest
      DateTime.ofFields? date clock.hour clock.minute clock.second clock.micro offset

end Iso

def Date.iso (d : Date) : String := String.ofList (Iso.writeDate d)

def DateTime.iso (t : DateTime) : String := String.ofList (Iso.writeDateTime 'T' t)

def Date.ofIso? (s : String) : Option Date := Iso.readDate s.toList

def DateTime.ofIso? (s : String) : Option DateTime := Iso.readDateTime s.toList

end DocStore
