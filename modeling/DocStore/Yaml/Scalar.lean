import DocStore.Value.Basic
import DocStore.Error
import DocStore.Yaml.Lines

/-! The values of plain scalars: words, integers in several bases, decimals, days and points in
time. What is none of these is text. -/

namespace DocStore

namespace Yaml

open Value

def vocabulary : List (Value × List String) :=
  [(bool true, ["yes", "Yes", "YES", "true", "True", "TRUE", "on", "On", "ON"]),
    (bool false, ["no", "No", "NO", "false", "False", "FALSE", "off", "Off", "OFF"]),
    (null, ["", "~", "null", "Null", "NULL"]),
    (float (Binary64.infinity false), [".inf", ".Inf", ".INF", "+.inf", "+.Inf", "+.INF"]),
    (float (Binary64.infinity true), ["-.inf", "-.Inf", "-.INF"]),
    (float Binary64.nan, [".nan", ".NaN", ".NAN"])]

def wordValue? (s : String) : Option Value :=
  (vocabulary.find? fun v => v.2.contains s).map Prod.fst

def isDigitIn (base : Nat) (c : Char) : Bool := c.toNat < 128 && (Integer.digitIn? base c).isSome

/-- Digits of a base and low lines, which are there only to be seen. -/
def areDigits (base : Nat) (cs : List Char) : Bool :=
  !cs.isEmpty && cs.all fun c => c == '_' || isDigitIn base c

/-- The number that digits stand for; low lines alone stand for none. -/
def numeral (base : Nat) (cs : List Char) : Except Error Nat :=
  match cs.filterMap (Integer.digitIn? base) with
  | [] => .error .value
  | ds => .ok (ds.foldl (fun n d => base * n + d) 0)

def signed : List Char → Option Bool × List Char
  | '-' :: cs => (some true, cs)
  | '+' :: cs => (some false, cs)
  | cs => (none, cs)

/-- Numbers below sixty after colons, the one or two digits of each, each worth a sixtieth of the
number before. -/
def sixtieths : List Char → Option (List Nat)
  | [] => some []
  | [':', a] => (Iso.digit? a).map fun m => [m]
  | ':' :: a :: b :: rest =>
    match Iso.digit? a, Iso.digit? b with
    | some m, some n => if m < 6 then (sixtieths rest).map ((10 * m + n) :: ·) else none
    | some m, none => if b == ':' then (sixtieths (b :: rest)).map (m :: ·) else none
    | _, _ => none
  | _ => none

def isDigitMark (c : Char) : Bool := c == '_' || Iso.isDigitChar c

def natural? (cs : List Char) : Option (Except Error Nat) :=
  let based (base : Nat) (ds : List Char) :=
    if areDigits base ds then some (numeral base ds) else none
  match cs with
  | ['0'] => some (.ok 0)
  | '0' :: 'b' :: ds => based 2 ds
  | '0' :: 'x' :: ds => based 16 ds
  | '0' :: ds => (based 8 ds).map fun _ => numeral 8 ('0' :: ds)
  | c :: ds =>
    if !Iso.isDigitChar c then none
    else
      match sixtieths ((c :: ds).dropWhile isDigitMark) with
      | none => none
      | some parts =>
        some ((numeral 10 ((c :: ds).takeWhile isDigitMark)).map fun n =>
          parts.foldl (fun n m => 60 * n + m) n)
  | [] => none

def integer? (cs : List Char) : Option (Except Error Value) :=
  let (sign, body) := signed cs
  (natural? body).map fun n => n.map fun n => int (if sign = some true then -n else n)

def isExponent : List Char → Bool
  | [] => true
  | e :: s :: ds =>
    (e == 'e' || e == 'E') && (s == '+' || s == '-') && !ds.isEmpty && ds.all Iso.isDigitChar
  | _ => false

/-- The sum of the parts of a number in base sixty, the last of which has a fraction. -/
def sexagesimal (whole : Nat) (parts : List Nat) (frac : List Char) : Option Binary64 :=
  match (whole :: parts).reverse with
  | [] => none
  | last :: higher =>
    (Binary64.ofText? (s!"{last}." ++ String.ofList (frac.filter (· != '_')))).map fun x =>
      (higher.foldl (fun (p : Binary64 × Nat) (n : Nat) =>
        (p.1.sub (Binary64.ofInt (n * p.2 : Nat)).neg, 60 * p.2)) (x, 60)).1

/-- A decimal must have a point, and its exponent a sign. -/
def decimal? (cs : List Char) : Option Binary64 :=
  let (sign, body) := signed cs
  let whole := body.takeWhile (· != '.')
  match body.dropWhile (· != '.') with
  | [] => none
  | _ :: more =>
    let frac := more.takeWhile isDigitMark
    let exponent := more.dropWhile isDigitMark
    let clean := Binary64.ofText? (String.ofList (cs.filter (· != '_')))
    match whole with
    | [] =>
      if sign.isNone && frac.head?.any Iso.isDigitChar && isExponent exponent then clean else none
    | c :: _ =>
      if !Iso.isDigitChar c then none
      else if whole.all isDigitMark then if isExponent exponent then clean else none
      else if !exponent.isEmpty then none
      else
        match sixtieths (whole.dropWhile isDigitMark), numeral 10 (whole.takeWhile isDigitMark) with
        | some parts, .ok n =>
          (sexagesimal n parts frac).map fun x => if sign = some true then x.neg else x
        | _, _ => none

def shortNumber : List Char → Option (Nat × List Char)
  | [] => none
  | a :: cs =>
    (Iso.digit? a).map fun m =>
      match cs with
      | [] => (m, [])
      | b :: rest =>
        match Iso.digit? b with
        | some n => (10 * m + n, rest)
        | none => (m, cs)

def skipMark (mark : Char) : List Char → Option (List Char)
  | [] => none
  | c :: cs => if c == mark then some cs else none

/-- The microseconds of the digits after a point; further digits are left out. -/
def microseconds (ds : List Char) : Nat :=
  (((ds.take 6).filterMap Iso.digit?) ++ List.replicate (6 - (ds.take 6).length) 0).foldl
    (fun n d => 10 * n + d) 0

/-- An offset in minutes at the end of a time, none if there is none there. -/
def zone? (cs : List Char) : Option (Option Int) :=
  match cs.dropWhile isGap with
  | [] => some none
  | ['Z'] => some (some 0)
  | s :: rest =>
    if s != '+' && s != '-' then none
    else do
      let (hours, rest) ← shortNumber rest
      let minutes ←
        match rest with
        | [] => some 0
        | rest => do
          let (minutes, rest) ← Iso.readDigits 2 0 (← skipMark ':' rest)
          if rest.isEmpty then some minutes else none
      let n : Int := 60 * hours + minutes
      some (some (if s == '-' then -n else n))

def pointInTime (date : Option Date) (hour minute second micro : Nat) (zone : Option Int) :
    Except Error Value :=
  let offset := zone.map fun m => Offset.ofMicros? (m * 60000000)
  match date, offset with
  | some d, none => found (DateTime.ofFields? d hour minute second micro none)
  | some d, some (some o) => found (DateTime.ofFields? d hour minute second micro (some o))
  | _, _ => .error .value
where
  found : Option DateTime → Except Error Value
    | some t => .ok (datetime t)
    | none => .error .value

def time? (cs : List Char) : Option (Except Error Value) := do
  let (year, r) ← Iso.readDigits 4 0 cs
  let (month, r) ← shortNumber (← skipMark '-' r)
  let (day, r) ← shortNumber (← skipMark '-' r)
  let date := Date.ofFields? year month day
  match r with
  | [] =>
    if cs.length != 10 then none
    else
      match date with
      | some d => some (.ok (.date d))
      | none => some (.error .value)
  | c :: r =>
    let r ←
      if c == 'T' || c == 't' then some r
      else if isGap c then some (r.dropWhile isGap)
      else none
    let (hour, r) ← shortNumber r
    let (minute, r) ← Iso.readDigits 2 0 (← skipMark ':' r)
    let (second, r) ← Iso.readDigits 2 0 (← skipMark ':' r)
    let (micro, r) := match r with
      | '.' :: ds => (microseconds (ds.takeWhile Iso.isDigitChar), ds.dropWhile Iso.isDigitChar)
      | r => (0, r)
    let zone ← zone? r
    some (pointInTime date hour minute second micro zone)

/-- The value of a plain scalar. Two words have a meaning only as keys. -/
def plainValue (cs : List Char) : Except Error Value :=
  let s := String.ofList cs
  match wordValue? s, decimal? cs, integer? cs, time? cs with
  | some v, _, _, _ => .ok v
  | none, some x, _, _ => .ok (float x)
  | none, none, some r, _ => r
  | none, none, none, some r => r
  | none, none, none, none => if s = "<<" || s = "=" then .error .yaml else .ok (str s)

end Yaml

end DocStore
