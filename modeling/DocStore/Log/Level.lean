import DocStore.Error
import DocStore.Value.Text

/-! Levels of log records: integers, some of which have names. -/

namespace DocStore

namespace LogLevel

/-- Names with their levels; the first name of a level is the one it is shown under. -/
def names : List (String × Int) :=
  [("CRITICAL", 50), ("FATAL", 50), ("ERROR", 40), ("WARNING", 30), ("WARN", 30), ("INFO", 20),
    ("DEBUG", 10), ("NOTSET", 0)]

def capital (c : Char) : Char :=
  if c == 'ı' then 'I' else if c == 'ſ' then 'S' else c.toUpper

/-- The level that a value names; an integer is one itself. -/
def ofValue (v : Value) : Except Error Value :=
  match v with
  | .int _ => .ok v
  | .bool _ => .ok v
  | .str s =>
    match names.lookup (String.ofList (s.toList.map capital)) with
    | some n => .ok (.int n)
    | none => .error (.level v)
  | .bytes _ => .error (.level v)
  | _ => .error .kind

def exact (v : Value) : Except Error Value :=
  match v with
  | .int _ => .ok v
  | .bool _ => .ok v
  | .str s =>
    match names.lookup s with
    | some n => .ok (.int n)
    | none => .error .value
  | _ => .error .kind

def rank : Value → Int
  | .int n => n
  | .bool true => 1
  | _ => 0

def name (v : Value) : String :=
  match names.find? fun p => p.2 == rank v with
  | some p => p.1
  | none => s!"Level {v.display}"

end LogLevel

end DocStore
