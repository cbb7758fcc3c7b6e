import DocStore.Query.Sort
import DocStore.Query.Update
import DocStore.Supply
import DocStore.Value.Integral

/-! Collections: documents under their identifiers, in the order they came. Writes find the first
document that a query matches; what fails leaves the documents as they were. A collection knows no
catalog, so that no record of a catalog's class can be an identifier in it. -/

namespace DocStore

open Value

structure Collection where
  name : Value
  idField : String
  /-- Documents under the identifiers they came with. -/
  documents : Entries
  indexes : List String
  /-- How often documents were looked through, and how often one was written. -/
  reads : Nat
  writes : Nat

namespace Collection

def empty (name : Value) (idField : String) : Collection := ⟨name, idField, [], [], 0, 0⟩

def size (c : Collection) : Nat := c.documents.length

def written (c : Collection) (documents : Entries) : Collection :=
  ⟨c.name, c.idField, documents, c.indexes, c.reads, c.writes + 1⟩

/-- Whether a value holds a name: documents do under a key, sequences as an item. -/
def holdsName (name : String) : Value → Option Bool
  | dict ps => some (Entries.contains (str name) ps)
  | list xs => some (xs.any (equal (str name)))
  | tuple xs => some (xs.any (equal (str name)))
  | .set _ xs => some (xs.any (equal (str name)))
  | str s => some ((s.splitOn name).length > 1)
  | ext _ _ => some false
  | _ => none

/-- The entries of a document that is to be inserted; one without identifier gets a new one. -/
def identified (idField : String) (document : Value) : Fresh Entries :=
  match document with
  | dict ps =>
    if Entries.contains (str idField) ps then pure ps
    else do
      let id ← Fresh.id
      pure (Entries.put (str idField) (uuid id) ps)
  | v =>
    match holdsName idField v with
    | some false => do
      let _ ← Fresh.id
      throw .kind
    | _ => throw .kind

def insertEntries (c : Collection) (ps : Entries) : Except Error Collection :=
  let id := (Entries.get? (str c.idField) ps).getD null
  if !id.hashable then .error .kind
  else if Entries.contains id c.documents then
    .error (.duplicate c.idField id c.name.display)
  else .ok (c.written (c.documents ++ [(id, dict ps)]))

def insert (c : Collection) (document : Value) : Fresh Collection := do
  let ps ← identified c.idField document
  match c.insertEntries ps with
  | .ok c => pure c
  | .error e => throw e

structure Found where
  before : Entries
  key : Value
  document : Value
  after : Entries

def findFirst (query : Value) : Entries → Except Error (Option Found)
  | [] => .ok none
  | (k, d) :: rest =>
    match matchesQuery d query with
    | .error e => .error e
    | .ok true => .ok (some ⟨[], k, d, rest⟩)
    | .ok false =>
      (findFirst query rest).map fun found =>
        found.map fun f => ⟨(k, d) :: f.before, f.key, f.document, f.after⟩

/-- The document to write to; one whose identifier is null cannot be found. -/
def target (c : Collection) (query : Value) : Except Error (Option Found) :=
  (findFirst query c.documents).map fun found => found.filter fun f => !f.key.isNull

/-- The document to put under a key. One without identifier gets the key itself, and a number that
is no number differs even from itself. -/
def replacement (idField : String) (key document : Value) : Except Error Value :=
  match document with
  | dict ps =>
    match Entries.get? (str idField) ps with
    | some id =>
      if equal id key then .ok (dict ps) else .error (.malformed (.replacedId idField key id))
    | none =>
      if key.isNan then .error (.malformed (.replacedId idField key key))
      else .ok (dict (Entries.put (str idField) key ps))
  | _ => .error .kind

def replaceFirst (c : Collection) (query document : Value) :
    Except Error (Option Value × Collection) := do
  match ← c.target query with
  | none => .ok (none, c)
  | some f => do
    let new ← replacement c.idField f.key document
    .ok (some f.document, c.written (f.before ++ (f.key, new) :: f.after))

def removeFirst (c : Collection) (query : Value) : Except Error (Option Value × Collection) := do
  match ← c.target query with
  | none => .ok (none, c)
  | some f => .ok (some f.document, c.written (f.before ++ f.after))

structure Counts where
  matched : Nat
  modified : Nat

/-- What became of the documents of a collection under their identifiers, each given in some form.
-/
structure Pass (α : Type) where
  documents : List (Value × α)
  counts : Counts
  result : Except Error Unit

def Pass.before {α : Type} (p : Value × α) (count : Counts) (rest : Pass α) : Pass α :=
  ⟨p :: rest.documents,
    ⟨count.matched + rest.counts.matched, count.modified + rest.counts.modified⟩, rest.result⟩

/-- Works on the documents that a test picks, or only on the first of them, until one cannot be. -/
def passOver {α : Type} (picks : α → Except Error Bool)
    (work : Value → α → Except Error (Option α)) (every : Bool) : List (Value × α) → Pass α
  | [] => ⟨[], ⟨0, 0⟩, .ok ()⟩
  | (k, d) :: rest =>
    match picks d with
    | .error e => ⟨(k, d) :: rest, ⟨0, 0⟩, .error e⟩
    | .ok false => (passOver picks work every rest).before (k, d) ⟨0, 0⟩
    | .ok true =>
      match work k d with
      | .error e => ⟨(k, d) :: rest, ⟨1, 0⟩, .error e⟩
      | .ok changed =>
        let count : Counts := ⟨1, if changed.isSome then 1 else 0⟩
        let new := (k, changed.getD d)
        if every then (passOver picks work every rest).before new count
        else ⟨new :: rest, count, .ok ()⟩

def updated (idField : String) (key document update : Value) : Except Error (Option Value) :=
  let u := applyUpdate document update
  match u.result with
  | .error e => .error e
  | .ok false => .ok none
  | .ok true =>
    match u.document with
    | dict ps =>
      if equal ((Entries.get? (str idField) ps).getD null) key then .ok (some (dict ps))
      else .error (.malformed (.changedId idField))
    | _ => .error .kind

/-- Updates the documents that match, or only the first of them. -/
def updateEntries (idField : String) (query update : Value) (every : Bool) (documents : Entries) :
    Pass Value :=
  passOver (matchesQuery · query) (updated idField · · update) every documents

/-- Updates documents; the collection is given as it is afterwards, even where this failed. -/
def updateMany (c : Collection) (query update : Value) (upsert every : Bool) :
    Collection × Except Error Counts :=
  if upsert then (c, .error (.malformed .upsert))
  else
    let p := updateEntries c.idField query update every c.documents
    (⟨c.name, c.idField, p.documents, c.indexes, c.reads, c.writes + p.counts.modified⟩,
      p.result.map fun _ => p.counts)

def matching (query : Value) : List Value → Except Error (List Value)
  | [] => .ok []
  | d :: ds =>
    match matchesQuery d query with
    | .error e => .error e
    | .ok true => (matching query ds).map (d :: ·)
    | .ok false => matching query ds

def select (c : Collection) (query : Value) : Collection × Except Error (List Value) :=
  (⟨c.name, c.idField, c.documents, c.indexes, c.reads + 1, c.writes⟩,
    matching query c.documents.values)

def indexName (field direction : Value) : String := s!"{field.display}_{direction.display}"

/-- Adds an index, if it is not there, and gives its name; the flag says whether it is new. -/
def ensureIndex (c : Collection) (field direction : Value) :
    Except Error (String × Bool × Collection) :=
  if equal direction (int 1) || equal direction (int (-1)) then
    let n := indexName field direction
    if c.indexes.contains n then .ok (n, false, c)
    else .ok (n, true, ⟨c.name, c.idField, c.documents, c.indexes ++ [n], c.reads, c.writes⟩)
  else .error (.malformed (.indexDirection direction))

def drop (c : Collection) : Collection := ⟨c.name, c.idField, [], [], c.reads, c.writes⟩

def stats (c : Collection) (openCursors : Nat) : Value :=
  dict [(str "name", c.name), (str "document_count", int c.size),
    (str "indexes", list (c.indexes.map str)), (str "open_cursors", int openCursors),
    (str "reads", int c.reads), (str "writes", int c.writes)]

def text (c : Collection) : String :=
  s!"MemoryStoreCollection(name={c.name.text}, size={c.size})"

def toValue (c : Collection) : Value :=
  dict [(str "documents", list c.documents.values), (str "indexes", list (c.indexes.map str))]

end Collection

end DocStore
