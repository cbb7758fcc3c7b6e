import DocStore.Settings.Basic
import DocStore.Yaml.Basic

/-! Where settings come from: a file named by a variable, one in the working directory, or the
shipped one. -/

namespace DocStore

namespace Settings

/-- Settings from a YAML text; an empty one leaves all standard. -/
def ofText (text : String) : Except Error Settings := do
  match ← Yaml.read text with
  | none => .ok standard
  | some .null => .ok standard
  | some v => ofValue v

def shippedText : String :=
  "# docquery default configuration\n\n" ++
  "store:\n  backend: memory\n  snapshot_path: null\n\n" ++
  "schema:\n  id_field: _id\n  class_field: class\n  revision_field: revision\n\n" ++
  "query:\n  max_filter_depth: 32\n  log_queries: true\n\n" ++
  "log_level: INFO\nlog_file: null\n"

def shippedPath : String := "default_config.yaml"

def workingPath : String := "./config/default_config.yaml"

/-- What the variable for the path holds, and the files that are there. -/
structure Surroundings where
  named : Option String
  files : List (String × String)

namespace Surroundings

def text? (w : Surroundings) (path : String) : Option String :=
  if path = shippedPath then some shippedText else w.files.lookup path

def standardPath (w : Surroundings) : String :=
  let other := if (w.files.lookup workingPath).isSome then workingPath else shippedPath
  match w.named with
  | some path => if path = "" then other else path
  | none => other

end Surroundings

/-- The settings in a file, which may be missing. -/
def load (w : Surroundings) (path : String) : Except Error Settings :=
  match w.text? path with
  | some text => ofText text
  | none => .ok standard

def fileName (path : String) : String :=
  String.ofList (path.toList.reverse.takeWhile (· != '/')).reverse

end Settings

end DocStore
