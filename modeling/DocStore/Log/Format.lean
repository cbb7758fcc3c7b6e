import DocStore.Calendar.Iso
import DocStore.Log.Level
import DocStore.Text.Alphanumeric

/-! Formats of log records: text with fields such as `%(message)s` in it. A field has a key, flags,
a width, a precision and the way its value is shown. -/

namespace DocStore

structure LogEntry where
  time : String
  logger : String
  level : Value
  message : String

namespace LogEntry

def value? (e : LogEntry) (key : String) : Option Value :=
  match key with
  | "name" => some (.str e.logger)
  | "levelno" => some e.level
  | "levelname" => some (.str (LogLevel.name e.level))
  | "message" => some (.str e.message)
  | "msg" => some (.str e.message)
  | "asctime" => some (.str e.time)
  | "args" => some (.tuple [])
  | "exc_info" => some .null
  | "exc_text" => some .null
  | "stack_info" => some .null
  | _ => none

end LogEntry

namespace LogFormat

structure Slot where
  key : List Char
  flags : List Char
  width : List Char
  precision : Option (List Char)
  shape : Char

def readCount (cs : List Char) : List Char × List Char :=
  match cs with
  | '*' :: rest => (['*'], rest)
  | cs => (cs.takeWhile Char.isDigit, cs.dropWhile Char.isDigit)

def readSlot (cs : List Char) : Option (Slot × List Char) :=
  match cs with
  | '(' :: rest =>
    match rest.dropWhile (· != ')') with
    | [] => none
    | _ :: after =>
      let isFlag := fun c => ['#', '0', '+', ' ', '-'].contains c
      let (width, left) := readCount (after.dropWhile isFlag)
      let (precision, shape) := match left with
        | '.' :: more => (some (readCount more).1, (readCount more).2)
        | more => (none, more)
      match shape with
      | [] => none
      | c :: more =>
        some (⟨rest.takeWhile (· != ')'), after.takeWhile isFlag, width, precision, c⟩, more)
  | _ => none

def isShape (c : Char) : Bool := "diouxefgcrsa%".toList.contains c.toLower

/-- Whether a text has a field in it, as a format must. -/
def isValid : List Char → Bool
  | [] => false
  | '%' :: cs =>
    match readSlot cs with
    | some (s, _) =>
      (!s.key.isEmpty && s.key.all isWordChar && isShape s.shape && s.precision != some []) ||
        isValid cs
    | none => isValid cs
  | _ :: cs => isValid cs

def count? (cs : List Char) : Option Nat :=
  if cs == ['*'] then none else some (cs.foldl (fun n c => 10 * n + (c.toNat - 48)) 0)

/-- Text set to a width, at the right unless a flag says left. -/
def padded (s : Slot) (width : Nat) (cs : List Char) : List Char :=
  let fill := List.replicate (width - cs.length) ' '
  if s.flags.contains '-' then cs ++ fill else fill ++ cs

/-- An integer in a base; zeros may fill it between sign and digits. -/
def number (s : Slot) (width : Nat) (precision : Option Nat) (base : Nat) (mark : String)
    (n : Int) : List Char :=
  let digits := Nat.toDigits base n.natAbs
  let digits := List.replicate ((precision.getD 0) - digits.length) '0' ++ digits
  let sign :=
    (if n < 0 then ['-'] else if s.flags.contains '+' then ['+']
      else if s.flags.contains ' ' then [' '] else []) ++
    if s.flags.contains '#' then mark.toList else []
  let zeros := if s.flags.contains '0' && !s.flags.contains '-'
    then width - sign.length - digits.length else 0
  padded s width (sign ++ List.replicate zeros '0' ++ digits)

def integer? : Value → Option Int
  | .int n => some n
  | .bool b => some (if b then 1 else 0)
  | _ => none

/-- A value as its field shows it; not every value can be shown in every way. -/
def show? (s : Slot) (v : Value) : Option (List Char) := do
  let width ← count? s.width
  let precision ←
    match s.precision with
    | none => some none
    | some p => (count? p).map some
  let cut (t : String) := padded s width (match precision with
    | some p => t.toList.take p
    | none => t.toList)
  match s.shape with
  | 's' => some (cut v.display)
  | 'r' => some (cut v.text)
  | 'd' => (integer? v).map (number s width precision 10 "")
  | 'i' => (integer? v).map (number s width precision 10 "")
  | 'u' => (integer? v).map (number s width precision 10 "")
  | 'o' => (integer? v).map (number s width precision 8 "0o")
  | 'x' => (integer? v).map (number s width precision 16 "0x")
  | 'X' => (integer? v).map fun n => (number s width precision 16 "0x" n).map Char.toUpper
  | '%' => some ['%']
  | _ => none

/-- A record in a format, none if the record lacks a field or cannot show it. -/
def fill (e : LogEntry) : Nat → List Char → Option (List Char)
  | 0, _ => none
  | _ + 1, [] => some []
  | n + 1, '%' :: '%' :: cs => (fill e n cs).map ('%' :: ·)
  | n + 1, '%' :: cs => do
    let (s, rest) ← readSlot cs
    let shown ← show? s (← e.value? (String.ofList s.key))
    let more ← fill e n rest
    some (shown ++ more)
  | n + 1, c :: cs => (fill e n cs).map (c :: ·)

def render? (format : String) (e : LogEntry) : Option String :=
  (fill e (format.length + 1) format.toList).map String.ofList

end LogFormat

end DocStore
