import DocStore.Document.Entries
import DocStore.Supply

/-! Classes of records: their fields in order, what is hinted about the fields' values, defaults,
and what a class does with a record once its fields are there. A class is known by its name alone,
and so is an enumeration; what these have besides is left out, such as methods, and members that an
enumeration makes up for values that it does not list. -/

namespace DocStore

/-- What is hinted about a value. Hints are made optional by `Hint.orNull`, so that no optional hint
is made optional again. -/
inductive Hint
  | any
  | cls (c : ClassRef)
  | list (item : Hint)
  | tuple (items : List Hint)
  | set (frozen : Bool) (item : Hint)
  | dict (key value : Hint)
  | optional (inner : Hint)
  deriving Inhabited

/-- The hint under which null may stand too, as it may under an optional hint already. -/
def Hint.orNull : Hint → Hint
  | optional h => optional h
  | h => optional h

theorem Hint.orNull_orNull (h : Hint) : h.orNull.orNull = h.orNull := by
  cases h <;> rfl

inductive Default
  | required
  | value (v : Value)
  | freshId

structure FieldSpec where
  name : String
  hint : Hint
  default : Default
  /-- Whether the field is given when a record is made; others are filled in by the class. -/
  given : Bool

/-- Why a class refuses a record: in its own words, or by failing on a value. -/
inductive Refusal
  | kind (words : Option String)
  | value (words : Option String)
  | key
  | overflow

/-- What comes of asking for the hints of a class: the hints, or nothing where a name in them is
unknown or stands for no type, or an exception that is not caught. -/
inductive Annotations
  | resolved
  | unknown
  | failing (exception : String)

structure ClassSpec where
  name : String
  identifiable : Bool
  /-- Whether its records cannot change, which lets them be members of sets. -/
  frozen : Bool
  revision : Int
  fields : List FieldSpec
  annotations : Annotations
  finish : Entries → Except Refusal Entries

structure Enumeration where
  name : String
  members : List (String × Value)

structure Catalog where
  classes : List ClassSpec
  enumerations : List Enumeration

namespace Catalog

def class? (cat : Catalog) (name : String) : Option ClassSpec :=
  cat.classes.find? fun c => c.name == name

def enumeration? (cat : Catalog) (name : String) : Option Enumeration :=
  cat.enumerations.find? fun e => e.name == name

/-- Whether an enumeration has no members, and so cannot be asked for one. -/
def isMemberless (cat : Catalog) (name : String) : Bool :=
  (cat.enumeration? name).any fun e => e.members.isEmpty

def member? (cat : Catalog) (owner name : String) : Option Value :=
  (cat.enumeration? owner).bind fun e => (e.members.lookup name).map (Value.member owner name)

def isIdentifiable (cat : Catalog) : Value → Bool
  | .record c _ => (cat.class? c).any ClassSpec.identifiable
  | _ => false

def isFrozen (cat : Catalog) (cls : String) : Bool :=
  (cat.class? cls).any ClassSpec.frozen || Value.isFrozen cls

end Catalog

namespace Enumeration

def ofValue? (e : Enumeration) (v : Value) : Option Value :=
  (e.members.find? fun m => Value.equal m.2 v).map fun m => .member e.name m.1 m.2

end Enumeration

namespace ClassSpec

/-- The hint of a field, or none where the hints of any field of the class are unknown. -/
def hintOf (c : ClassSpec) (f : FieldSpec) : Hint :=
  match c.annotations with
  | .resolved => f.hint
  | _ => .any

/-- The exception that asking for the hints of a class ends in. -/
def uncaught? (c : ClassSpec) : Option String :=
  match c.annotations with
  | .failing exception => some exception
  | _ => none

def fill (given : List (String × Value)) : List FieldSpec → Fresh (Except Refusal Entries)
  | [] => pure (.ok [])
  | f :: fs => do
    let value ← match given.lookup f.name, f.default with
      | some v, _ => pure (some v)
      | none, .value v => pure (some v)
      | none, .freshId => (some ∘ Value.uuid) <$> Fresh.id
      | none, .required => pure none
    match value with
    | none => pure (.error (.kind none))
    | some v => (Except.map ((.str f.name, v) :: ·)) <$> fill given fs

/-- Makes a record from given fields; defaults stand in for those left out. -/
def construct (c : ClassSpec) (given : List (String × Value)) : Fresh (Except Refusal Value) :=
  let known := fun n => c.fields.any fun f => f.given && f.name == n
  let needed := c.fields.all fun f =>
    match f.default with
    | .required => given.any fun g => g.1 == f.name
    | _ => true
  if given.all (fun g => known g.1) && needed then do
    match ← fill given c.fields with
    | .error r => pure (.error r)
    | .ok fields => pure ((c.finish fields).map (.record c.name))
  else pure (.error (.kind none))

end ClassSpec

end DocStore
