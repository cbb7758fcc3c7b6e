import DocStore.Codec.Registry

/-! Writing objects as documents: identifier, class name and revision, then the fields. -/

namespace DocStore

/-- Work that may fail and may give classes their names on the way. -/
abbrev Naming := ExceptT Error (StateM Registry)

def Naming.className (cat : Catalog) (cls : String) : Naming String := fun r =>
  match r.className cat (.cls (.entity cls)) with
  | .ok (n, r) => (.ok n, r)
  | .error e => (.error e, r)

namespace Codec

open Value

/-- The fields that come before those of the class. -/
def header (cat : Catalog) (s : Schema) (cls : String) (fields : Entries) : Naming Entries := do
  let identifiable := (cat.class? cls).any ClassSpec.identifiable
  let id := (Entries.get? (str "id") fields).getD null
  let start : Entries := if identifiable then [(str s.idField, id)] else []
  let name ← Naming.className cat cls
  let named := Entries.put (str s.classField) (str name) start
  if identifiable then
    let revision := ((cat.class? cls).map ClassSpec.revision).getD 0
    return Entries.put (str s.revisionField) (int revision) named
  else return named

/-- Whether a field is written as the identifier and not once more. -/
def isIdentity (cat : Catalog) (cls : String) (name : Value) : Bool :=
  (cat.class? cls).any ClassSpec.identifiable && equal name (str "id")

mutual

def toValue (cat : Catalog) (s : Schema) : Value → Naming Value
  | member _ _ v => pure v
  | record c fs => do
    let start ← header cat s c fs
    let encoded ← toFields cat s c fs
    pure (dict (Entries.merge start encoded))
  | list xs => do
    let ys ← toValues cat s xs
    pure (list ys)
  | tuple xs => do
    let ys ← toValues cat s xs
    pure (list ys)
  | .set _ xs => do
    let ys ← toValues cat s xs
    pure (list ys)
  | ext code data => pure (list [int code, bytes data])
  | dict ps => do
    let qs ← toEntries cat s ps
    pure (dict qs)
  | v => pure v
termination_by structural x => x

def toValues (cat : Catalog) (s : Schema) : List Value → Naming (List Value)
  | [] => pure []
  | x :: xs => do
    let y ← toValue cat s x
    let ys ← toValues cat s xs
    pure (y :: ys)
termination_by structural x => x

def toEntries (cat : Catalog) (s : Schema) : Entries → Naming Entries
  | [] => pure []
  | p :: ps => do
    let q ← toEntry cat s p
    let qs ← toEntries cat s ps
    pure (q :: qs)
termination_by structural x => x

def toEntry (cat : Catalog) (s : Schema) : Value × Value → Naming (Value × Value)
  | (k, v) => do
    let w ← toValue cat s v
    pure (k, w)
termination_by structural x => x

def toFields (cat : Catalog) (s : Schema) (cls : String) : Entries → Naming Entries
  | [] => pure []
  | f :: fs =>
    if isIdentity cat cls f.1 then toFields cat s cls fs
    else do
      let g ← toEntry cat s f
      let gs ← toFields cat s cls fs
      pure (g :: gs)
termination_by structural x => x

end

def toDocument (cat : Catalog) (s : Schema) (v : Value) : Naming Value :=
  match v with
  | record _ _ => toValue cat s v
  | v => throw (.unserializable (.notObject v.typeName))

end Codec

end DocStore
