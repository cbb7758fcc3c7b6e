import DocStore.Catalog.Basic
import DocStore.Value.Order

/-! A catalog of classes about people, places and tasks. -/

namespace DocStore

namespace Models

open Value

def field (name : String) (hint : Hint) (default : Default) : FieldSpec :=
  ⟨name, hint, default, true⟩

def kind (k : Kind) : Hint := .cls (.kind k)

def level : Enumeration := ⟨"Level", [("JUNIOR", str "junior"), ("SENIOR", str "senior")]⟩

def twoAndAHalf : Binary64 := Binary64.ofDecimal false 25 (-1)

def priority : Enumeration :=
  ⟨"Priority", [("LOW", int 1), ("MID", float twoAndAHalf), ("HIGH", int 3), ("NONE", null)]⟩

def levelHint : Hint := .cls (.enumeration "Level")

def junior : Value := .member "Level" "JUNIOR" (str "junior")

def low : Value := .member "Priority" "LOW" (int 1)

def idField : FieldSpec := field "id" (kind .uuid) .freshId

def plain (name : String) (fields : List FieldSpec) : ClassSpec :=
  ⟨name, false, false, 0, fields, .resolved, .ok⟩

def identified (name : String) (revision : Int) (fields : List FieldSpec) : ClassSpec :=
  ⟨name, true, false, revision, idField :: fields, .resolved, .ok⟩

def address : ClassSpec :=
  plain "Address" [field "city" (kind .str) .required, field "street" (kind .str) (.value (str ""))]

def person : ClassSpec :=
  identified "Person" 2 [field "name" (kind .str) .required,
    field "age" (kind .int) (.value (int 0)),
    field "level" levelHint (.value junior),
    field "address" (Hint.orNull (.cls (.entity "Address"))) (.value null),
    field "tags" (.list (kind .str)) (.value (list []))]

def legacyPerson : ClassSpec :=
  identified "LegacyPerson" 1 [field "name" (kind .str) .required,
    field "surname" (kind .str) (.value (str ""))]

def point : ClassSpec :=
  plain "Point" [field "x" (kind .int) .required, field "y" (kind .int) .required]

def bag : ClassSpec :=
  identified "Bag" 0 [
    field "pair" (.tuple [kind .int, kind .int]) (.value (tuple [int 0, int 0])),
    field "labels" (.set false (kind .str)) (.value (.set false [])),
    field "frozen" (.set true (kind .int)) (.value (.set true [])),
    field "levels" (.list levelHint) (.value (list [])),
    field "lvtuple" (.tuple [levelHint, kind .int]) (.value (tuple [])),
    field "builtin" (kind .tuple) (.value (tuple [])),
    field "generic" (.list (kind .int)) (.value (list []))]

def startOf2000 : Date := Date.startOfYear 2000 (by decide)

def task : ClassSpec :=
  identified "Task" 0 [field "title" (kind .str) .required,
    field "priority" (.cls (.enumeration "Priority")) (.value low),
    field "maybe" levelHint.orNull (.value null),
    field "owner" (kind .uuid).orNull (.value null),
    field "parent" (kind .uuid) (.value (uuid (Uuid.ofNat 0))),
    field "due" (kind .date) (.value (date startOf2000)),
    field "at" (kind .datetime) (.value (datetime (DateTime.midnight startOf2000))),
    field "points" (.list (.cls (.entity "Point"))) (.value (list [])),
    field "optlevels" (Hint.orNull (.list levelHint)) (.value null),
    field "attrs" (.dict (kind .str) levelHint) (.value (dict [])),
    field "data" .any (.value null)]

def widthOf (lo : Int) (hi : Value) : Except Refusal Value :=
  match hi with
  | int h => .ok (int (h - lo))
  | .bool b => .ok (int ((if b then 1 else 0) - lo))
  | float x =>
    let l := Binary64.ofInt lo
    if l.isInfinite then .error .overflow else .ok (float (x.sub l))
  | _ => .error (.kind none)

def wholeOf? : Value → Option Int
  | int n => some n
  | .bool b => some (if b then 1 else 0)
  | _ => none

/-- A range runs from an integer up to a number that is not below it, and knows its width. -/
def finishRange (fields : Entries) : Except Refusal Entries :=
  let lo := (Entries.get? (str "lo") fields).getD null
  let hi := (Entries.get? (str "hi") fields).getD null
  match wholeOf? lo with
  | none => .error (.kind (some "Range: lo must be an int"))
  | some l =>
    match related .gt lo hi with
    | none => .error (.kind none)
    | some true => .error (.value (some "Range: lo > hi"))
    | some false =>
      if l = -1 then .error .key
      else (widthOf l hi).map fun w => Entries.put (str "width") w fields

def range : ClassSpec :=
  ⟨"Range", false, false, 0, [field "lo" (kind .int) .required,
    field "hi" (kind .int) (.value (int 10)), ⟨"width", kind .int, .value (int 0), false⟩],
    .resolved, finishRange⟩

/-- A class whose hints name a class that does not exist. -/
def forward : ClassSpec :=
  ⟨"Forward", false, false, 0, [field "level" levelHint .required, field "other" .any (.value null),
    field "items" (.tuple [levelHint]) (.value (tuple []))], .unknown, .ok⟩

def plainId : ClassSpec :=
  plain "Plain" [field "id" (kind .int) .required, field "name" (kind .str) (.value (str "x"))]

def empty : ClassSpec := plain "Empty" []

def catalog : Catalog where
  classes := [address, person, legacyPerson, point, bag, task, range, forward, plainId, empty]
  enumerations := [level, priority]

end Models

end DocStore
