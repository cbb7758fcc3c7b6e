import DocStore.Session.Basic

/-! Objects in the collections of a session: writing, finding and reading them. -/

namespace DocStore

open Value

namespace Session

def objectLog : String := "docquery.core.collection"

def plannerLog : String := "docquery.query.planner"

def debug (b : Nat) (words : String → String) : Working Unit := do
  note (.debug objectLog (words ((← get).binding b).name))

def info (b : Nat) (words : String → String) : Working Unit := do
  note (.info objectLog (words ((← get).binding b).name))

def onCollection {α : Type} (b : Nat) (f : Nat → Storing α) : Working α := do
  onStore (f ((← get).binding b).collection)

def document (object : Value) : Working Value := do
  let s ← get
  naming (Codec.toDocument s.catalog s.schema object)

def idQuery (id : Value) : Working Value := do
  let s ← get
  let v ← naming (Codec.toValue s.catalog s.schema id)
  pure (dict [(str s.schema.idField, v)])

def insert (b : Nat) (object : Value) : Working Unit := do
  let d ← document object
  onCollection b fun n => Store.insert n d
  let id ← liftExcept (object.attribute "id")
  putIds b (← liftExcept (((← get).binding b).ids.add id))
  debug b fun name => s!"Inserted {id.display} into '{name}'"

def missing (b : Nat) (id : Value) : Working Unit := do
  throw (.notFound id ((← get).binding b).name)

def replace (b : Nat) (object : Value) : Working Unit := do
  let d ← document object
  let id ← liftExcept (object.attribute "id")
  let q ← idQuery id
  match ← onCollection b fun n => Store.onCollection n (Collection.replaceFirst · q d) with
  | none => missing b id
  | some _ => debug b fun name => s!"Replaced {id.display} in '{name}'"

def persist (b : Nat) (object : Value) : Working Unit := do
  let id ← liftExcept (object.attribute "id")
  if ← liftExcept (((← get).binding b).ids.contains id) then replace b object
  else insert b object

/-- Deletes the stored object of an identifier, which may be given by an object that has it. -/
def delete (b : Nat) (object : Value) : Working Unit := do
  let id ←
    if (← get).catalog.isIdentifiable object then liftExcept (object.attribute "id")
    else pure object
  let q ← idQuery id
  match ← onCollection b fun n => Store.onCollection n (Collection.removeFirst · q) with
  | none => missing b id
  | some _ => debug b fun name => s!"Deleted {id.display} from '{name}'"

/-! Queries -/

def noteAll (logger : String) : List String → Working Unit
  | [] => pure ()
  | t :: ts => do
    note (.debug logger t)
    noteAll logger ts

def plan (d : Description) : Working Plan := do
  let s ← get
  let p ← naming (Plan.ofDescription s.catalog s.schema s.settings.maxDepth d)
  if s.settings.logQueries.truthy then noteAll plannerLog p.report
  pure p

def count (b : Nat) (d : Description) : Working Nat := do
  let p ← plan d
  onCollection b fun n => Store.count n p

/-- A reading of what a description asks for, of objects or only of their identifiers. -/
def start (b : Nat) (d : Description) (idsOnly : Bool) : Working Reading := do
  let p ← plan d
  let s ← get
  pure (Reading.ofPlan (s.binding b).collection p (if idsOnly then some s.schema.idField else none))

def decoder (s : Session) : Decoder := ⟨s.catalog, s.schema, s.registry⟩

/-- Reads up to a number of things, or all, and keeps the identifiers seen. -/
def take (b : Nat) (r : Reading) (most : Option Nat) (s : Session) : Reading.Taken × Session :=
  let ids := (s.binding b).ids
  let t := match most with
    | some n => r.take n s.decoder ids s.store
    | none => r.takeAll s.decoder ids s.store
  (t, ((putIds b t.ids).run { s with store := t.store }).2)

def stop (r : Reading) : Working Reading := fun s =>
  let (r, t) := r.stop s.store
  (.ok r, { s with store := t })

def first (b : Nat) (d : Description) : Working (Option Value) := do
  let r ← start b (← liftExcept (d.limit (int 1))) false
  let (t, s) := take b r (some 1) (← get)
  set s
  let _ ← stop t.reading
  match t.fault with
  | some e => throw e
  | none => pure t.items.head?

def byId (id : Value) : Working Description := do
  let f ← liftExcept (Field.ofText (← get).schema.idField .object)
  let e ← liftExcept (Filter.make f .equal id)
  pure ⟨[e], [], [], 0, 0⟩

def find (b : Nat) (id : Value) : Working (Option Value) := do first b (← byId id)

def contains (b : Nat) (id : Value) : Working Bool := do
  pure (0 < (← count b (← byId id)))

def size (b : Nat) : Working Nat := count b .everything

def seen (b : Nat) (id : Value) : Working Bool := do
  liftExcept (((← get).binding b).ids.contains id)

def bindingText (s : Session) (b : Nat) : String :=
  s!"CollectionManager(name={quoted (s.binding b).name})"

end Session

end DocStore
