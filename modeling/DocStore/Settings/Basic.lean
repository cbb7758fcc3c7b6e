import DocStore.Document.Entries

/-! Settings of a session. They are kept as they were given; who uses one checks it. -/

namespace DocStore

open Value

structure Settings where
  /-- The sort of store, and the file that its snapshot is kept in, if any. -/
  backend : Value
  snapshotPath : Value
  /-- Names of the fields that say what a document is. -/
  idField : Value
  classField : Value
  revisionField : Value
  /-- How deep filters may be nested, and whether queries are logged. -/
  maxDepth : Value
  logQueries : Value
  logLevel : Value
  logFile : Value

namespace Settings

def standard : Settings :=
  ⟨str "memory", null, str "_id", str "class", str "revision", int 32, bool true, str "INFO",
    null⟩

/-- The entry that a pair stands for; its first member must be a possible key. -/
def entryOf (v : Value) : Except Error (Value × Value) :=
  match v.iterate? with
  | none => .error .kind
  | some [k, w] => if k.hashable then .ok (k, w) else .error .kind
  | some _ => .error .value

def entriesOf : List Value → Except Error (List (Value × Value))
  | [] => .ok []
  | v :: vs => do
    let p ← entryOf v
    let ps ← entriesOf vs
    .ok (p :: ps)

/-- The entries of a dictionary, or those that a sequence of pairs stands for. -/
def entries (v : Value) : Except Error Entries :=
  match v with
  | dict ps => .ok ps
  | v =>
    match v.iterate? with
    | none => .error .kind
    | some vs => (entriesOf vs).map Entries.ofList

def isNamed (names : List String) : Value → Bool
  | str s => names.contains s
  | _ => false

/-- Refuses entries under other names than the known ones. -/
def known (names : List String) (ps : Entries) : Except Error Entries :=
  if ps.all fun p => isNamed names p.1 then .ok ps else .error .kind

/-- A group of settings; one that is left out or empty sets nothing. -/
def group (name : String) (names : List String) (ps : Entries) : Except Error Entries :=
  match Entries.get? (str name) ps with
  | none => .ok []
  | some v =>
    if !v.truthy then .ok []
    else
      match v with
      | dict qs => known names qs
      | _ => .error .kind

def setting (name : String) (standard : Value) (ps : Entries) : Value :=
  (Entries.get? (str name) ps).getD standard

/-- Settings from a dictionary of groups; what it leaves out is standard. -/
def ofValue (v : Value) : Except Error Settings := do
  let ps ← (entries v).bind (known ["store", "schema", "query", "log_level", "log_file"])
  let store ← group "store" ["backend", "snapshot_path"] ps
  let schema ← group "schema" ["id_field", "class_field", "revision_field"] ps
  let query ← group "query" ["max_filter_depth", "log_queries"] ps
  .ok ⟨setting "backend" standard.backend store,
    setting "snapshot_path" standard.snapshotPath store,
    setting "id_field" standard.idField schema,
    setting "class_field" standard.classField schema,
    setting "revision_field" standard.revisionField schema,
    setting "max_filter_depth" standard.maxDepth query,
    setting "log_queries" standard.logQueries query,
    setting "log_level" standard.logLevel ps, setting "log_file" standard.logFile ps⟩

mutual

/-- A value with the records in it laid open as dictionaries. -/
def laidOpen : Value → Value
  | record _ fs => dict (openEntries fs)
  | dict ps => dict (openEntries ps)
  | list xs => list (openItems xs)
  | tuple xs => tuple (openItems xs)
  | v => v
termination_by structural x => x

def openItems : List Value → List Value
  | [] => []
  | x :: xs => laidOpen x :: openItems xs
termination_by structural x => x

def openEntries : Entries → Entries
  | [] => []
  | p :: ps => openEntry p :: openEntries ps
termination_by structural x => x

def openEntry : Value × Value → Value × Value
  | (k, v) => (k, laidOpen v)
termination_by structural x => x

end

def toValue (s : Settings) : Value :=
  laidOpen (dict [
    (str "store", dict [(str "backend", s.backend), (str "snapshot_path", s.snapshotPath)]),
    (str "schema", dict [(str "id_field", s.idField), (str "class_field", s.classField),
      (str "revision_field", s.revisionField)]),
    (str "query", dict [(str "max_filter_depth", s.maxDepth), (str "log_queries", s.logQueries)]),
    (str "log_level", s.logLevel), (str "log_file", s.logFile)])

end Settings

end DocStore
