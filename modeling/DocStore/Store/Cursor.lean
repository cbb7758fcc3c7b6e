import DocStore.Query.Projection
import DocStore.Store.Collection

/-! Cursors over a collection. A cursor is set up first; it looks at the documents when the first
one is asked for, and closes after the last. -/

namespace DocStore

open Value

structure Cursor where
  query : Value
  projection : Value
  skipped : Value
  limited : Value
  /-- Keys to sort by, each a path with a direction. -/
  keys : List Value
  /-- What is still to be read, once reading has begun. -/
  pending : Option (List Value)
  closed : Bool

namespace Cursor

def opened (query projection : Value) : Cursor :=
  ⟨if query.truthy then query else dict [], projection, int 0, int 0, [], none, false⟩

def close (cur : Cursor) : Cursor :=
  if cur.closed then cur
  else ⟨cur.query, cur.projection, cur.skipped, cur.limited, cur.keys, none, true⟩

/-- A cursor can be set up until it is read or closed. -/
def checkFresh (cur : Cursor) : Except Error Unit :=
  if cur.closed then .error (.cursor .closed)
  else if cur.pending.isSome then .error (.cursor .started)
  else .ok ()

def checkCount (what : String) (n : Value) : Except Error Unit :=
  match related .lt n (int 0) with
  | none => .error .kind
  | some true => .error (.cursor (.negative what n))
  | some false => .ok ()

def skip (cur : Cursor) (n : Value) : Except Error Cursor := do
  cur.checkFresh
  checkCount "skip" n
  .ok ⟨cur.query, cur.projection, n, cur.limited, cur.keys, cur.pending, cur.closed⟩

def limit (cur : Cursor) (n : Value) : Except Error Cursor := do
  cur.checkFresh
  checkCount "limit" n
  .ok ⟨cur.query, cur.projection, cur.skipped, n, cur.keys, cur.pending, cur.closed⟩

def readKeys : List Value → Except Error (List Value)
  | [] => .ok []
  | v :: vs => do
    let (path, direction) ← v.pair
    let n ← direction.toInteger
    let rest ← readKeys vs
    .ok (tuple [path, int n] :: rest)

def sort (cur : Cursor) (keys : Value) : Except Error Cursor := do
  cur.checkFresh
  match keys.iterate? with
  | none => .error .kind
  | some vs => do
    let ks ← readKeys vs
    .ok ⟨cur.query, cur.projection, cur.skipped, cur.limited, ks, cur.pending, cur.closed⟩

def slice (skipped limited : Value) (documents : List Value) : Except Error (List Value) :=
  match skipped.index? with
  | none => .error .kind
  | some n =>
    if limited.truthy then
      match limited.index? with
      | none => .error .kind
      | some m => .ok ((documents.drop n.toNat).take m.toNat)
    else .ok (documents.drop n.toNat)

/-- The documents that a cursor is about, as they are now. -/
def window (cur : Cursor) (c : Collection) : Collection × Except Error (List Value) :=
  let (c, found) := c.select cur.query
  (c, do
    let documents ← found
    let sorted ← if cur.keys.isEmpty then .ok documents else sortDocuments documents cur.keys
    slice cur.skipped cur.limited sorted)

def size (cur : Cursor) (c : Collection) : Collection × Except Error Nat :=
  if cur.closed then (c, .error (.cursor .closed))
  else
    let (c, r) := cur.window c
    (c, r.map List.length)

def projectAll (idField : String) (projection : Value) : List Value → Except Error (List Value)
  | [] => .ok []
  | d :: ds =>
    match project idField projection d with
    | .error e => .error e
    | .ok p => (projectAll idField projection ds).map (p :: ·)

def reading (cur : Cursor) (pending : List Value) : Cursor :=
  ⟨cur.query, cur.projection, cur.skipped, cur.limited, cur.keys, some pending, cur.closed⟩

/-- Looks at the documents, unless that was done; a failure leaves the cursor as it was. -/
def start (cur : Cursor) (c : Collection) : Collection × Except Error (List Value) :=
  match cur.pending with
  | some ds => (c, .ok ds)
  | none =>
    let (c, r) := cur.window c
    (c, r.bind (projectAll c.idField cur.projection))

structure Read (α : Type) where
  collection : Collection
  cursor : Cursor
  result : Except Error α

/-- The next document; after the last there is none, and the cursor is closed. -/
def next (cur : Cursor) (c : Collection) : Read (Option Value) :=
  if cur.closed then ⟨c, cur, .ok none⟩
  else
    match cur.start c with
    | (c, .error e) => ⟨c, cur, .error e⟩
    | (c, .ok []) => ⟨c, cur.close, .ok none⟩
    | (c, .ok (d :: ds)) => ⟨c, cur.reading ds, .ok (some d)⟩

def drain (cur : Cursor) (c : Collection) : Read (List Value) :=
  if cur.closed then ⟨c, cur, .ok []⟩
  else
    match cur.start c with
    | (c, .error e) => ⟨c, cur, .error e⟩
    | (c, .ok ds) => ⟨c, cur.close, .ok ds⟩

def text (cur : Cursor) (collection : Value) : String :=
  let keys := (list cur.keys).text
  s!"MemoryCursor(collection={collection.text}, query={cur.query.text}, " ++
    s!"skip={cur.skipped.display}, limit={cur.limited.display}, sort={keys})"

end Cursor

end DocStore
