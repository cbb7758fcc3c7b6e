import DocStore.Codec.Decode
import DocStore.IdSet
import DocStore.Query.Plan
import DocStore.Store.Basic

/-! Running a plan on a store. The cursor of a reading is closed at its end, by any failure, and
when the reading is given up. -/

namespace DocStore

open Value

namespace Store

def closingOnFailure {α : Type} (k : Nat) (x : Storing α) : Storing α := fun s =>
  match x s with
  | (.ok a, t) => (.ok a, t)
  | (.error e, t) => (.error e, t.putCursor k (t.cursorAt k).2.close)

def closing {α : Type} (k : Nat) (x : Storing α) : Storing α := fun s =>
  let (r, t) := x s
  (r, t.putCursor k (t.cursorAt k).2.close)

def isPositive (v : Value) : Except Error Bool :=
  match related .gt v (int 0) with
  | some b => .ok b
  | none => .error .kind

/-- Opens a cursor for a plan; null stands for the projection of the plan. -/
def openPlan (n : Nat) (p : Plan) (projection : Value) : Storing Nat := do
  let k ← openCursor n p.query (if projection.isNull then p.projection else projection)
  closingOnFailure k do
    if ← liftExcept (isPositive p.skip) then setUpCursor k fun cur => cur.skip p.skip
    if ← liftExcept (isPositive p.limit) then setUpCursor k fun cur => cur.limit p.limit
    if p.sort.truthy then setUpCursor k fun cur => cur.sort p.sort
  pure k

def count (n : Nat) (p : Plan) : Storing Nat := do
  let k ← openPlan n p null
  closing k (sizeOfCursor k)

end Store

/-- Whatever makes objects of documents, and tells which objects have an identifier. -/
structure ObjectReader where
  /-- Reads a document, or only a part of one. -/
  decode : Bool → Value → Fresh Value
  isIdentifiable : Value → Bool

structure Decoder where
  catalog : Catalog
  schema : Schema
  registry : Registry

namespace Decoder

def decode (d : Decoder) (partly : Bool) (document : Value) : Fresh Value :=
  Codec.fromDocument d.catalog d.schema d.registry partly document

abbrev reader (d : Decoder) : ObjectReader := ⟨d.decode, d.catalog.isIdentifiable⟩

instance : Coe Decoder ObjectReader := ⟨reader⟩

end Decoder

inductive Stage
  | waiting
  | under (cursor : Nat)
  | finished

/-- A plan being run on a collection, for objects or only for what stands under a field. -/
structure Reading where
  collection : Nat
  plan : Plan
  only : Option String
  stage : Stage

namespace Reading

def ofPlan (n : Nat) (p : Plan) (only : Option String) : Reading := ⟨n, p, only, .waiting⟩

structure Next where
  reading : Reading
  ids : IdSet
  store : Store
  result : Except Error (Option Value)

def finished (r : Reading) : Reading := { r with stage := .finished }

def object (d : ObjectReader) (partly : Bool) (ids : IdSet) (document : Value) :
    Fresh (Value × IdSet) := do
  let v ← d.decode partly document
  if d.isIdentifiable v then do
    match (v.attribute "id").bind ids.add with
    | .ok ids => pure (v, ids)
    | .error e => throw e
  else pure (v, ids)

def under (r : Reading) (d : ObjectReader) (ids : IdSet) (k : Nat) :
    Storing (Option (Value × IdSet)) := do
  match ← Store.readCursor k Cursor.next with
  | none => pure none
  | some document =>
    match r.only with
    | some field =>
      match document with
      | dict ps => pure (some ((Entries.get? (str field) ps).getD null, ids))
      | _ => throw .kind
    | none => do
      let read ← Store.fresh (object d (!r.plan.projection.isNull) ids document)
      pure (some read)

/-- The projection of a reading, null being that of the plan. -/
def projection (r : Reading) : Value :=
  match r.only with
  | some field => dict [(str field, bool true)]
  | none => null

def step (r : Reading) (d : ObjectReader) (ids : IdSet) (k : Nat) (s : Store) : Next :=
  match (r.under d ids k).run s with
  | (.ok (some (v, ids)), t) => ⟨{ r with stage := .under k }, ids, t, .ok (some v)⟩
  | (.ok none, t) => ⟨r.finished, ids, t.putCursor k (t.cursorAt k).2.close, .ok none⟩
  | (.error e, t) => ⟨r.finished, ids, t.putCursor k (t.cursorAt k).2.close, .error e⟩

def next (r : Reading) (d : ObjectReader) (ids : IdSet) (s : Store) : Next :=
  match r.stage with
  | .finished => ⟨r, ids, s, .ok none⟩
  | .under k => r.step d ids k s
  | .waiting =>
    match (Store.openPlan r.collection r.plan r.projection).run s with
    | (.ok k, t) => r.step d ids k t
    | (.error e, t) => ⟨r.finished, ids, t, .error e⟩

def stop (r : Reading) (s : Store) : Reading × Store :=
  match r.stage with
  | .under k => (r.finished, s.putCursor k (s.cursorAt k).2.close)
  | _ => (r.finished, s)

structure Taken where
  reading : Reading
  ids : IdSet
  store : Store
  items : List Value
  fault : Option Error

def take : Nat → Reading → ObjectReader → IdSet → Store → Taken
  | 0, r, _, ids, s => ⟨r, ids, s, [], none⟩
  | n + 1, r, d, ids, s =>
    let x := r.next d ids s
    match x.result with
    | .error e => ⟨x.reading, x.ids, x.store, [], some e⟩
    | .ok none => ⟨x.reading, x.ids, x.store, [], none⟩
    | .ok (some v) =>
      let rest := take n x.reading d x.ids x.store
      ⟨rest.reading, rest.ids, rest.store, v :: rest.items, rest.fault⟩

/-- Reads all there is; no reading gives more than its collection holds. -/
def takeAll (r : Reading) (d : ObjectReader) (ids : IdSet) (s : Store) : Taken :=
  take ((s.collectionAt r.collection).size + 1) r d ids s

end Reading

end DocStore
