import DocStore.Value.Basic

/-! Three texts of a value: in full, as messages quote it; plain, as it stands inside a sentence;
and the one for logged queries, where patterns stand between slashes. An integer is written with all
its digits; the limit on their number is put on reading alone. -/

namespace DocStore

def commaList (xs : List String) : String := String.intercalate ", " xs

def inBrackets (xs : List String) : String := "[" ++ commaList xs ++ "]"

def inBraces (xs : List String) : String := "\x7b" ++ commaList xs ++ "\x7d"

/-- One item alone keeps a comma, to be told from an item in brackets. -/
def inParens : List String → String
  | [x] => "(" ++ x ++ ",)"
  | xs => "(" ++ commaList xs ++ ")"

namespace Offset

def text (o : Offset) : String :=
  if o.micros = 0 then "datetime.timezone.utc"
  else
    let day : Int := 86400000000
    let part (label : String) (n : Int) := if n = 0 then [] else [s!"{label}={n}"]
    let rest := o.micros % day
    let parts := part "days" (o.micros / day) ++ part "seconds" (rest / 1000000) ++
      part "microseconds" (rest % 1000000)
    s!"datetime.timezone(datetime.timedelta({commaList parts}))"

end Offset

def Date.text (d : Date) : String := s!"datetime.date({d.year}, {d.month}, {d.day})"

/-- Seconds and microseconds are left out where nothing follows them. -/
def DateTime.text (t : DateTime) : String :=
  let small := if t.micro ≠ 0 then [t.second, t.micro] else if t.second ≠ 0 then [t.second] else []
  let numbers := [t.date.year, t.date.month, t.date.day, t.hour, t.minute] ++ small
  let zone := match t.offset with
    | some o => [s!"tzinfo={o.text}"]
    | none => []
  s!"datetime.datetime({commaList (numbers.map toString ++ zone)})"

namespace Value

/-- The text of a key or name as it stands in a sentence, if it is text. -/
def bare : Value → String
  | str s => s
  | _ => ""

def fieldName : Value → String
  | record _ ((_, str n) :: _) => n
  | _ => ""

/-- A text without its quotes, also the text that a member of an enumeration stands for; for any
other value its full text, which is given. -/
def unquoted (v : Value) (full : String) : String :=
  match v with
  | str s => s
  | member _ _ (str s) => s
  | _ => full

/-- What an object is worth where members of enumerations stand for their values. -/
def worth : Value → Value
  | member _ _ v => v
  | record c fs =>
    match fs.find? fun f => f.1.bare = "value" with
    | some f => f.2
    | none => record c fs
  | v => v

mutual

/-- The full text of a value. -/
def text : Value → String
  | null => "None"
  | bool b => if b then "True" else "False"
  | int n => toString n
  | float x => x.text
  | str s => quoted s
  | list xs => inBrackets (texts xs)
  | dict ps => inBraces (entryTexts ps)
  | bytes bs => quotedBytes bs
  | uuid u => s!"UUID('{u.text}')"
  | datetime t => t.text
  | date d => d.text
  | tuple xs => inParens (texts xs)
  | set true xs => if xs.isEmpty then "frozenset()" else s!"frozenset({inBraces (texts xs)})"
  | set false xs => if xs.isEmpty then "set()" else inBraces (texts xs)
  | pattern p => p.text
  | member owner name v => s!"<{owner}.{name}: {text v}>"
  | record "FieldFilter" [(_, f), (_, op), (_, v)] =>
    s!"FieldFilter({fieldName f} {unquoted op (text op)} {text v})"
  | record "SubFilter" [(_, op), (_, tuple xs)] =>
    s!"SubFilter({unquoted op (text op)} {inBrackets (texts xs)})"
  | record c fs => s!"{c}({commaList (fieldTexts fs)})"
  | cls c => c.text
  | ext code data => s!"ExtType(code={code}, data={quotedBytes data})"
  | timestamp seconds nanos => s!"Timestamp(seconds={seconds}, nanoseconds={nanos})"
  | generic name args => s!"typing.{name}[{args}]"
  | handle => "<object object>"
termination_by structural x => x

def texts : List Value → List String
  | [] => []
  | x :: xs => text x :: texts xs
termination_by structural x => x

def entryTexts : Entries → List String
  | [] => []
  | p :: ps => entryText p :: entryTexts ps
termination_by structural x => x

def entryText : Value × Value → String
  | (k, v) => s!"{text k}: {text v}"
termination_by structural x => x

def fieldTexts : Entries → List String
  | [] => []
  | p :: ps => fieldText p :: fieldTexts ps
termination_by structural x => x

def fieldText : Value × Value → String
  | (k, v) => s!"{bare k}={text v}"
termination_by structural x => x

end

/-- The text of a value inside a sentence: text without quotes, dates and identifiers plain. -/
def display : Value → String
  | str s => s
  | uuid u => u.text
  | date d => d.iso
  | datetime t => String.ofList (Iso.writeDateTime ' ' t)
  | member owner name _ => s!"{owner}.{name}"
  | v => text v

mutual

/-- The text of a query in a log. -/
def render : Value → String
  | pattern p =>
    match p.source with
    | .text s => s!"/{s}/{p.letters}"
    | .bytes bs => s!"/{quotedBytes bs}/{p.letters}"
  | dict ps => inBraces (renderEntries ps)
  | list xs => inBrackets (renders xs)
  | tuple xs => inBrackets (renders xs)
  | ext code data => inBrackets [toString code, quotedBytes data]
  | v => text v
termination_by structural x => x

def renders : List Value → List String
  | [] => []
  | x :: xs => render x :: renders xs
termination_by structural x => x

def renderEntries : Entries → List String
  | [] => []
  | p :: ps => renderEntry p :: renderEntries ps
termination_by structural x => x

def renderEntry : Value × Value → String
  | (k, v) => s!"{text k}: {render v}"
termination_by structural x => x

end

end Value

end DocStore
