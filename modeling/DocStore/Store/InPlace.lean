import DocStore.Query.InPlace
import DocStore.Store.Collection

/-! Updates of documents that a collection keeps as objects. Each is worked on in a copy, in which
what was one object is one object still. -/

namespace DocStore

open Value

namespace Objects

/-- The copy of a document after an update; none if it did not change. -/
def updated (idField : String) (key : Value) (u o : Objects) : Except Error (Option Objects) :=
  let r := o.applyUpdate u
  match r.result with
  | .error e => .error e
  | .ok false => .ok none
  | .ok true =>
    let id := (r.document.getAt [idField]).bind r.document.heap.tree
    if equal (id.getD null) key then .ok (some r.document)
    else .error (.malformed (.changedId idField))

/-- Updates the documents that match, or only the first of them. -/
def updateEach (idField : String) (query : Value) (u : Objects) (every : Bool)
    (documents : List (Value × Objects)) : Collection.Pass Objects :=
  Collection.passOver (fun o => matchesQuery (o.tree.getD handle) query) (updated idField · u)
    every documents

end Objects

end DocStore
