import DocStore.Log.Record
import DocStore.Store.Cursor
import DocStore.Text.Case
import DocStore.Wire.Snapshot

/-! Stores of named collections. Collections and cursors are held by number, so that whoever holds
one keeps it after its name is gone. -/

namespace DocStore

structure Store where
  idField : String
  /-- Names of the collections, in the order they were first used. -/
  names : List (Value × Nat)
  collections : List Collection
  /-- All cursors with the collections they read. -/
  cursors : List (Nat × Cursor)
  /-- Which cursors are registered with which collections, as pairs of their numbers. -/
  registered : List (Nat × Nat)
  /-- How many identifiers were handed out. -/
  issued : Nat
  /-- What happened, oldest first. -/
  journal : List LogRecord

/-- Work on a store; what a failure leaves behind is kept. -/
abbrev Storing := ExceptT Error (StateM Store)

namespace Store

def empty (idField : String) (issued : Nat) : Store := ⟨idField, [], [], [], [], issued, []⟩

def storeLog : String := "docquery.storage.memory"

def note (r : LogRecord) : Storing Unit := modify fun s => { s with journal := s.journal ++ [r] }

def fresh {α : Type} (x : Fresh α) : Storing α := fun s =>
  let (r, n) := x.run s.issued
  (r, { s with issued := n })

def numberOf? (s : Store) (name : Value) : Option Nat :=
  (s.names.find? fun p => Value.equal p.1 name).map Prod.snd

def collectionNames (s : Store) : List Value := s.names.map Prod.fst

def collection (name : Value) : Storing Nat := fun s =>
  match s.numberOf? name with
  | some n => (.ok n, s)
  | none =>
    let n := s.collections.length
    (.ok n, { s with names := s.names ++ [(name, n)],
                     collections := s.collections ++ [Collection.empty name s.idField] })

def collectionAt (s : Store) (n : Nat) : Collection :=
  s.collections.getD n (Collection.empty .null s.idField)

def putCollection (s : Store) (n : Nat) (c : Collection) : Store :=
  { s with collections := s.collections.set n c }

def onCollection {α : Type} (n : Nat) (f : Collection → Except Error (α × Collection)) :
    Storing α := fun s =>
  match f (s.collectionAt n) with
  | .ok (a, c) => (.ok a, s.putCollection n c)
  | .error e => (.error e, s)

/-- A change of a collection that stays even if it fails. -/
def throughCollection {α : Type} (n : Nat) (f : Collection → Collection × Except Error α) :
    Storing α := fun s =>
  let (c, r) := f (s.collectionAt n)
  (r, s.putCollection n c)

def insert (n : Nat) (document : Value) : Storing Unit := do
  let c ← fresh ((← get).collectionAt n |>.insert document)
  modify fun s => s.putCollection n c

def ensureIndex (n : Nat) (field direction : Value) : Storing String := do
  let c := (← get).collectionAt n
  let (name, isNew) ← onCollection n fun c =>
    (c.ensureIndex field direction).map fun r => ((r.1, r.2.1), r.2.2)
  if isNew then note (.debug storeLog s!"Created index {name} on '{c.name.display}'")
  pure name

/-- Forgets a name; the collection under it loses its documents. -/
def dropCollection (name : Value) : Storing Unit := modify fun s =>
  match s.numberOf? name with
  | none => s
  | some n =>
    { s.putCollection n (s.collectionAt n).drop with
      names := s.names.filter fun p => !Value.equal p.1 name }

/-! Cursors -/

/-- A new cursor, which its collection registers. -/
def withCursor (s : Store) (n : Nat) (cur : Cursor) : Store :=
  { s with cursors := s.cursors ++ [(n, cur)],
           registered := s.registered.insert (n, s.cursors.length) }

def openCursor (n : Nat) (query projection : Value) : Storing Nat := fun s =>
  (.ok s.cursors.length, s.withCursor n (Cursor.opened query projection))

/-- How many cursors a collection has registered. -/
def openCursors (s : Store) (n : Nat) : Nat := (s.registered.filter fun p => p.1 == n).length

def cursorAt (s : Store) (k : Nat) : Nat × Cursor :=
  s.cursors.getD k (0, (Cursor.opened .null .null).close)

/-- Puts a cursor in its place; when one closes, its collection registers it no longer. -/
def putCursor (s : Store) (k : Nat) (cur : Cursor) : Store :=
  let (n, old) := s.cursorAt k
  { s with cursors := s.cursors.set k (n, cur),
           registered := if cur.closed && !old.closed then s.registered.erase (n, k)
             else s.registered }

def setUpCursor (k : Nat) (f : Cursor → Except Error Cursor) : Storing Unit := fun s =>
  match f (s.cursorAt k).2 with
  | .ok cur => (.ok (), s.putCursor k cur)
  | .error e => (.error e, s)

def readCursor {α : Type} (k : Nat) (f : Cursor → Collection → Cursor.Read α) : Storing α :=
  fun s =>
    let (n, cur) := s.cursorAt k
    let r := f cur (s.collectionAt n)
    (r.result, (s.putCollection n r.collection).putCursor k r.cursor)

def sizeOfCursor (k : Nat) : Storing Nat := fun s =>
  let (n, cur) := s.cursorAt k
  let (c, r) := cur.size (s.collectionAt n)
  (r, s.putCollection n c)

def closeCursor (k : Nat) : Storing Unit := modify fun s => s.putCursor k (s.cursorAt k).2.close

def cursorText (s : Store) (k : Nat) : String :=
  let (n, cur) := s.cursorAt k
  cur.text (s.collectionAt n).name

/-! Snapshots -/

def snapshot (s : Store) : Except Error (List UInt8) :=
  Snapshot.pack (.dict (s.names.map fun p => (p.1, (s.collectionAt p.2).toValue)))

def save (path : String) : Storing (List UInt8) := do
  let bytes ← liftExcept (← get).snapshot
  note (.info storeLog s!"Saved {(← get).names.length} collections to {path}")
  pure bytes

def splitIndexName (name : String) : String × String :=
  let after := (name.toList.reverse.takeWhile (· ≠ '_')).reverse
  if after.length = name.length then ("", name)
  else (String.ofList (name.toList.take (name.length - after.length - 1)), String.ofList after)

def loadIndexes (n : Nat) : List Value → Storing Unit
  | [] => pure ()
  | .str name :: rest => do
    let (field, direction) := splitIndexName name
    let d ← liftExcept (Value.str direction).toInteger
    let _ ← ensureIndex n (.str field) (.int d)
    loadIndexes n rest
  | _ :: _ => throw .kind

def itemsUnder (key : String) (ps : Entries) : Except Error (List Value) :=
  match ((Entries.get? (.str key) ps).getD (.list [])).iterate? with
  | some xs => .ok xs
  | none => .error .kind

def insertAll (n : Nat) : List Value → Storing Unit
  | [] => pure ()
  | d :: ds => do
    insert n d
    insertAll n ds

def loadCollections : Entries → Storing Unit
  | [] => pure ()
  | (name, data) :: rest => do
    let n ← collection name
    match data with
    | .dict ps => do
      insertAll n (← liftExcept (itemsUnder "documents" ps))
      loadIndexes n (← liftExcept (itemsUnder "indexes" ps))
      loadCollections rest
    | _ => throw .kind

/-- Does work on a store with other collections, and takes the store only if the work succeeds. -/
def replacing {α : Type} (idField : String) (x : Storing α) : Storing α := fun s =>
  match x { s with idField := idField, names := [] } with
  | (.ok a, t) => (.ok a, t)
  | (.error e, t) => (.error e, { s with issued := t.issued, journal := t.journal })

def load (bytes : List UInt8) (idField path : String) : Storing Unit := do
  match ← liftExcept (Snapshot.unpack bytes) with
  | .dict ps =>
    replacing idField do
      loadCollections ps
      note (.info storeLog s!"Loaded {ps.length} collections from {path}")
  | _ => throw .kind

def create (backend : Value) (saved : Option (List UInt8)) (idField path : String) :
    Storing Unit :=
  match backend with
  | .str b =>
    let b := lowerText b
    if b = "memory" then
      match saved with
      | some bytes => load bytes idField path
      | none => replacing idField (pure ())
    else throw (.backend b)
  | _ => throw .kind

def text (s : Store) : String :=
  s!"MemoryDocumentStore(collections={(Value.list s.collectionNames).text})"

end Store

end DocStore
