import DocStore.Log.Level
import DocStore.Settings.Basic
import DocStore.Store.Reading

/-! Sessions: a store under settings, with the collections that were asked for and the identifiers
seen through each of them. A session is saved when it is closed. -/

namespace DocStore

open Value

/-- A collection as a session uses it: a name, the number of the stored collection, and the
identifiers seen. -/
structure Binding where
  name : String
  collection : Nat
  ids : IdSet

structure Session where
  catalog : Catalog
  settings : Settings
  registry : Registry
  store : Store
  /-- All bindings that were made, and which of them a name stands for now. -/
  bindings : List Binding
  bound : List (String × Nat)
  /-- The file of the snapshot, if it was written. -/
  saved : Option (List UInt8)
  closed : Bool

/-- Work in a session; what a failure leaves behind is kept. -/
abbrev Working := ExceptT Error (StateM Session)

namespace Session

def sessionLog : String := "docquery.core.session"

def onStore {α : Type} (x : Storing α) : Working α := fun s =>
  let (r, t) := x.run s.store
  (r, { s with store := t })

def naming {α : Type} (x : Naming α) : Working α := fun s =>
  let (r, names) := x.run s.registry
  (r, { s with registry := names })

def note (r : LogRecord) : Working Unit := onStore (Store.note r)

def nameOr (standard : String) : Value → String
  | str s => s
  | _ => standard

/-- Names of the fields that say what a document is; bindings are made only if they are names. -/
def schemaOf (c : Settings) : Schema :=
  ⟨nameOr "_id" c.idField, nameOr "class" c.classField, nameOr "revision" c.revisionField⟩

def schema (s : Session) : Schema := schemaOf s.settings

def snapshotPath? (c : Settings) : Option String :=
  match c.snapshotPath with
  | str p => if p = "" then none else some p
  | _ => none

def opened : Working Unit := note (.info sessionLog "Session opened on MemoryDocumentStore")

def onEmptyStore (cat : Catalog) (c : Settings) (names : Registry) (issued : Nat) : Session :=
  let s : Session :=
    ⟨cat, c, names, Store.empty (schemaOf c).idField issued, [], [], none, false⟩
  (opened.run s).2

def takeStore : Working Unit := do
  let s ← get
  let c := s.settings
  let _ ← liftExcept (LogLevel.ofValue c.logLevel)
  let saved := if (snapshotPath? c).isSome then s.saved else none
  onStore (Store.create c.backend saved (schemaOf c).idField ((snapshotPath? c).getD ""))
  opened

def ofSettings (cat : Catalog) (c : Settings) (names : Registry) (issued : Nat) :
    Except Error Session :=
  let s : Session :=
    ⟨cat, c, names, Store.empty (schemaOf c).idField issued, [], [], none, false⟩
  match takeStore.run s with
  | (.ok _, s) => .ok s
  | (.error e, _) => .error e

def binding (s : Session) (b : Nat) : Binding := s.bindings.getD b ⟨"", 0, .empty⟩

def putIds (b : Nat) (ids : IdSet) : Working Unit := modify fun s =>
  { s with bindings := s.bindings.set b ⟨(s.binding b).name, (s.binding b).collection, ids⟩ }

def bind (name : Value) (collection : Nat) : Working Nat := do
  let n ← liftExcept (collectionName name)
  let c := (← get).settings
  let _ ← liftExcept (fieldName c.idField)
  let _ ← liftExcept (fieldName c.classField)
  let _ ← liftExcept (fieldName c.revisionField)
  let b := (← get).bindings.length
  modify fun s => { s with bindings := s.bindings ++ [⟨n, collection, .empty⟩] }
  pure b

/-- The binding of a name, which is made when it is first asked for. -/
def collection (name : Value) : Working Nat := do
  let n ← liftExcept (collectionName name)
  match (← get).bound.lookup n with
  | some b => pure b
  | none => do
    let b ← bind name (← onStore (Store.collection name))
    modify fun s => { s with bound := s.bound ++ [(n, b)] }
    note (.debug sessionLog s!"Bound collection '{n}'")
    pure b

def dropCollection (name : Value) : Working Unit := do
  if !name.hashable then throw .kind
  modify fun s => { s with bound := s.bound.filter fun p => !equal (str p.1) name }
  onStore (Store.dropCollection name)
  note (.info sessionLog s!"Dropped collection '{name.display}'")

/-- Saves the store if the settings name a file; closing once more does nothing. -/
def close : Working Unit := do
  if (← get).closed then pure ()
  else do
    modify fun s => { s with closed := true }
    match snapshotPath? (← get).settings with
    | some path => do
      let bytes ← onStore (Store.save path)
      modify fun s => { s with saved := some bytes }
    | none => pure ()
    note (.info sessionLog "Session closed")

/-- Closes the session and opens another one, with a store as the settings ask for or an empty
one; of the names of classes only the given ones stay. -/
def reopen (fromSettings : Bool) (names : Registry) : Working Unit := do
  close
  modify fun s => { s with registry := names, bound := [], closed := false }
  if fromSettings then takeStore
  else do
    onStore (Store.replacing (← get).schema.idField (pure ()))
    opened

def text (s : Session) : String :=
  let names := (list (s.bound.map fun p => str p.1)).text
  s!"Session(store={s.store.text}, collections={names})"

end Session

end DocStore
