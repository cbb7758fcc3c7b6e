import DocStore.Session.Objects

/-! Changes to all documents of a collection: indexes, fields that go or get another name, and
classes that take over the documents of a revision. -/

namespace DocStore

open Value

namespace Session

def nameOfField (v : Value) : Except Error String :=
  match v with
  | record "Field" _ =>
    match v.attribute "name" with
    | .ok (str n) => .ok n
    | _ => .error .kind
  | v => fieldName v

def ensureIndexes (b : Nat) : List Value → Working (List String)
  | [] => pure []
  | f :: fs => do
    let name ← liftExcept (f.attribute "name")
    let index ← onCollection b fun n => Store.ensureIndex n name (int 1)
    let rest ← ensureIndexes b fs
    pure (index :: rest)

def createIndexes (b : Nat) (fields : List Value) : Working (List String) := do
  let names ← ensureIndexes b fields
  let shown := (list (names.map str)).text
  info b fun name => s!"Ensured indexes {shown} on '{name}'"
  pure names

def updateAll (b : Nat) (query update : Value) : Working Nat := do
  let counts ← onCollection b fun n =>
    Store.throughCollection n fun c => c.updateMany query update false true
  pure counts.modified

def having (field : String) : Value := dict [(str field, dict [(str "$exists", bool true)])]

def removeField (b : Nat) (field : Value) : Working Nat := do
  let f ← liftExcept (nameOfField field)
  let n ← updateAll b (having f) (dict [(str "$unset", dict [(str f, int 1)])])
  info b fun name => s!"Removed field '{f}' from {n} documents in '{name}'"
  pure n

def renameField (b : Nat) (field target : Value) : Working Nat := do
  let f ← liftExcept (nameOfField field)
  let g ← liftExcept (nameOfField target)
  if f = g then throw (.invalid (.renameToItself f))
  let n ← updateAll b (having f) (dict [(str "$rename", dict [(str f, str g)])])
  info b fun name => s!"Renamed field '{f}' to '{g}' on {n} documents in '{name}'"
  pure n

def replaceRevisionClass (b : Nat) (revision cls : Value) : Working Nat := do
  let c ←
    match cls with
    | str c => if c = "" then throw (.invalid (.className cls)) else pure c
    | v => throw (.invalid (.className v))
  let s ← get
  let revisionField ← liftExcept (Field.ofText s.schema.revisionField (.cls (.kind .int)))
  let classField ← liftExcept (Field.ofText s.schema.classField (.cls (.kind .str)))
  let old ← liftExcept (Filter.make revisionField .equal revision)
  let other ← liftExcept (Filter.make classField .notEqual cls)
  let query ← naming (Filter.compileAll s.catalog s.schema s.settings.maxDepth [] [old, other])
  let n ← updateAll b (dict query) (dict [(str "$set", dict [(str s.schema.classField, cls)])])
  info b fun name =>
    s!"Moved {n} documents of revision {revision.display} to class '{c}' in '{name}'"
  pure n

def drop (b : Nat) : Working Unit := do
  onCollection b fun n => modify fun s => s.putCollection n (s.collectionAt n).drop
  info b fun name => s!"Dropped collection '{name}'"

end Session

end DocStore
