import DocStore.Catalog.Basic

/-! The names under which classes stand in documents. A name keeps its class; a class may get a new
name, and gets its own on first use. -/

namespace DocStore

/-- Names of the fields that say what a document is. -/
structure Schema where
  idField : String
  classField : String
  revisionField : String
  deriving DecidableEq

namespace Schema

def standard : Schema := ⟨"_id", "class", "revision"⟩

end Schema

structure Registry where
  /-- Names with their classes, in the order they were first given. -/
  byName : List (String × String)
  /-- Classes with the names given to them last. -/
  names : List (String × String)

namespace Registry

def empty : Registry := ⟨[], []⟩

def classNamed? (r : Registry) (name : String) : Option String := r.byName.lookup name

def nameOf? (r : Registry) (cls : String) : Option String := r.names.lookup cls

def assign (key value : String) : List (String × String) → List (String × String)
  | [] => [(key, value)]
  | p :: ps => if p.1 = key then (key, value) :: ps else p :: assign key value ps

/-- Names that belong to queries rather than to the catalog; they can be stored like any record. -/
def isQueryClass (c : String) : Bool := Value.isFrozen c

def isEntity (cat : Catalog) (c : String) : Bool := (cat.class? c).isSome || isQueryClass c

/-- Gives a class a name, its own unless another is asked for. -/
def register (cat : Catalog) (r : Registry) (cls : Value) (name : Option String) :
    Except Error Registry :=
  match cls with
  | .cls (.entity c) =>
    if isEntity cat c then
      let n := match name with
        | some n => if n = "" then c else n
        | none => c
      match r.classNamed? n with
      | some holder =>
        if holder = c then .ok ⟨assign n c r.byName, assign c n r.names⟩
        else .error (.invalid (.nameTaken n (.cls (.entity holder))))
      | none => .ok ⟨assign n c r.byName, assign c n r.names⟩
    else .error (.invalid (.notEntity cls))
  | v => .error (.invalid (.notEntity v))

/-- The name of a class, which registers itself if it has none. -/
def className (cat : Catalog) (r : Registry) (cls : Value) : Except Error (String × Registry) :=
  if !cls.hashable then .error .kind
  else
    match cls with
    | .null => .error .key
    | .cls (.entity c) =>
      match r.nameOf? c with
      | some n => .ok (n, r)
      | none =>
        (r.register cat cls none).bind fun r =>
          match r.nameOf? c with
          | some n => .ok (n, r)
          | none => .error .key
    | v => (r.register cat v none).bind fun _ => .error .key

def resolve (r : Registry) (name : Value) : Except Error String :=
  if !name.hashable then .error .kind
  else
    match name with
    | .str n =>
      match r.classNamed? n with
      | some c => .ok c
      | none => .error (.unserializable (.unknownDiscriminator name))
    | v => .error (.unserializable (.unknownDiscriminator v))

def toEntries (r : Registry) : Entries :=
  r.byName.map fun p => (.str p.1, .cls (.entity p.2))

end Registry

end DocStore
