import DocStore.Log.Format

/-! Loggers by dotted name. A record goes to the handlers of its logger and of all loggers above it,
if its level reaches that of the nearest one that has a level. -/

namespace DocStore

/-- Where records go: to the output, or to the log file. -/
structure LogHandler where
  toFile : Bool
  format : String

structure Logger where
  level : Value
  handlers : List LogHandler

structure Loggers where
  /-- Loggers by name; the one above all others is called `root`. -/
  known : List (String × Logger)
  /-- Names that were asked for or set up. -/
  served : List String
  file : Option String
  /-- Levels to go back to, with the loggers they belong to, the latest first. -/
  former : List (String × Value)

/-- Work with loggers; what a failure leaves behind is kept. -/
abbrev Logging := ExceptT Error (StateM Loggers)

namespace Loggers

def base : String := "docquery"

def standardFormat : String := "%(asctime)s - %(name)s - %(levelname)s - %(message)s"

def fresh : Loggers := ⟨[("root", ⟨.int 30, []⟩)], [], none, []⟩

def rootName (name : String) : String := if name = "" then "root" else name

def get (ls : Loggers) (name : String) : Logger := (ls.known.lookup name).getD ⟨.int 0, []⟩

def put (name : String) (l : Logger) : List (String × Logger) → List (String × Logger)
  | [] => [(name, l)]
  | p :: ps => if p.1 = name then (name, l) :: ps else p :: put name l ps

def set (ls : Loggers) (name : String) (l : Logger) : Loggers :=
  { ls with known := put name l ls.known }

def serve (ls : Loggers) (name : String) : Loggers :=
  if ls.served.contains name then ls else { ls with served := ls.served ++ [name] }

/-- Sets up a logger anew and gives its full name. Its level is set even if the format turns out to
be none. -/
def setUp (name : String) (level : Value) (format : Option String) (toFile : Bool) :
    Logging String := do
  let full := rootName name
  modify fun ls => ls.set full (ls.get full)
  let level ← liftExcept (LogLevel.ofValue level)
  let format := match format with
    | some f => if f = "" then standardFormat else f
    | none => standardFormat
  modify fun ls => ls.set full ⟨level, []⟩
  if !LogFormat.isValid format.toList then throw .value
  let handlers := ⟨false, format⟩ :: if toFile then [⟨true, format⟩] else []
  modify fun ls => (ls.set full ⟨level, handlers⟩).serve name
  if toFile then modify fun ls => { ls with file := some (ls.file.getD "") }
  pure full

/-- The full name of a logger; the one over all of this library is set up on first use. -/
def obtain (name : String) : Logging String := do
  if !(← MonadState.get).served.contains base then
    let _ ← setUp base (.str "INFO") none false
  let full := if name = base || (base ++ ".").isPrefixOf name then name else s!"{base}.{name}"
  if !(← MonadState.get).served.contains full then
    modify fun ls => (ls.set full (ls.get full)).serve full
  pure full

/-- The names above a name, given from its end; of two dots in a row the first does not count. -/
def above : Nat → List Char → List (List Char)
  | 0, _ => []
  | n + 1, cs =>
    match cs.dropWhile (· != '.') with
    | [] => []
    | [_] => []
    | _ :: c :: rest => (c :: rest) :: above n rest

def parent (ls : Loggers) (name : String) : String :=
  let names := (above name.length name.toList.reverse).map fun cs => String.ofList cs.reverse
  (names.find? fun n => (ls.known.lookup n).isSome).getD "root"

def line (ls : Loggers) : Nat → String → List Logger
  | 0, _ => [ls.get "root"]
  | n + 1, name =>
    if name = "root" then [ls.get "root"] else ls.get name :: line ls n (ls.parent name)

def effectiveLevel (ls : Loggers) (name : String) : Value :=
  let levels := (ls.line name.length name).map Logger.level
  (levels.find? fun l => LogLevel.rank l != 0).getD (.int 0)

def isEnabled (ls : Loggers) (name : String) (level : Value) : Bool :=
  0 < LogLevel.rank level && LogLevel.rank (ls.effectiveLevel name) ≤ LogLevel.rank level

/-- What handlers of one sort make of a record. -/
def written (toFile : Bool) (e : LogEntry) (hs : List LogHandler) : String :=
  String.join ((hs.filter fun h => h.toFile == toFile).map fun h =>
    match LogFormat.render? h.format e with
    | some t => t ++ "\n"
    | none => "")

/-- Logs a record, whose level must be a number, and gives what it put out. -/
def log (e : LogEntry) : Logging String := do
  if (LogFormat.integer? e.level).isNone then throw .kind
  let ls ← MonadState.get
  if ls.isEnabled e.logger e.level then
    let handlers := (ls.line e.logger.length e.logger).flatMap Logger.handlers
    modify fun ls => { ls with file := ls.file.map (· ++ written true e handlers) }
    pure (written false e handlers)
  else pure ""

/-- Changes the level of a logger until the change is left. -/
def enter (name : String) (level : Value) : Logging Value := do
  let level ← liftExcept (LogLevel.ofValue level)
  modify fun ls =>
    { ls.set name ⟨level, (ls.get name).handlers⟩ with
      former := (name, (ls.get name).level) :: ls.former }
  pure level

/-- Changes the level of a logger for good; names of levels are taken as they are written. -/
def setLevel (name : String) (level : Value) : Logging Unit := do
  let level ← liftExcept (LogLevel.exact level)
  modify fun ls => ls.set name ⟨level, (ls.get name).handlers⟩

/-- Goes back to the level before the latest change that is not left yet. -/
def leave : Logging Value := do
  match (← MonadState.get).former with
  | [] => throw .key
  | (name, level) :: rest => do
    modify fun ls => { ls.set name ⟨level, (ls.get name).handlers⟩ with former := rest }
    pure level

end Loggers

end DocStore
