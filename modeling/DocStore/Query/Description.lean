import DocStore.Filter.Dictionary
import DocStore.Value.Integral

/-! What to fetch: filters, sort keys, fields, and how much. A description only grows; a builder
that refuses its arguments leaves it as it was. -/

namespace DocStore

open Value

namespace Field

/-- The field that a record stands for. -/
def ofRecord? : Value → Option Field
  | .record "Field" [(_, .str n), (_, t)] => (ofText n (Filter.typeOf t)).toOption
  | _ => none

end Field

/-- A field to sort by and a direction. Neither is looked at before a plan is made. -/
structure SortSpec where
  field : Value
  direction : Value

namespace SortSpec

def ascending : Value := .member "SortDirection" "ASCENDING" (int 1)

def descending : Value := .member "SortDirection" "DESCENDING" (int (-1))

def toValue (s : SortSpec) : Value :=
  .record "SortSpec" [(.str "field", s.field), (.str "direction", s.direction)]

def ofRecord? : Value → Option SortSpec
  | .record "SortSpec" [(_, f), (_, d)] => some ⟨f, d⟩
  | _ => none

/-- A direction of the enumeration is equal to its number. -/
def compared (s : SortSpec) : Value :=
  match s.direction with
  | .member "SortDirection" _ n => toValue ⟨s.field, n⟩
  | _ => s.toValue

/-- The name and the direction to sort by. -/
def key (s : SortSpec) : Except Error (Value × Int) := do
  let name ← s.field.attribute "name"
  let direction ← s.direction.toInteger
  pure (name, direction)

end SortSpec

namespace Field

def ascending (f : Field) : SortSpec := ⟨f.toValue, SortSpec.ascending⟩

def descending (f : Field) : SortSpec := ⟨f.toValue, SortSpec.descending⟩

end Field

/-- Filters and sort keys, of which the one added last stands first; fields in the order they were
added, of which none means all; and counts, of which a limit of zero means no limit. -/
structure Description where
  filterStack : List Filter
  sortStack : List SortSpec
  fields : List Field
  skipped : Nat
  limited : Nat

namespace Description

def everything : Description := ⟨[], [], [], 0, 0⟩

/-- The filters in the order they were added. -/
def filters (d : Description) : List Filter := d.filterStack.reverse

/-- The sort keys in the order they were added; the first decides first. -/
def sorts (d : Description) : List SortSpec := d.sortStack.reverse

/-- Reads arguments of one sort; the first that is of another is the fault. -/
def readAll {α : Type} (what : String) (read : Value → Option α) :
    List Value → Except Error (List α)
  | [] => .ok []
  | v :: vs =>
    match read v with
    | none => .error (.invalid (.expected what v.typeName))
    | some a =>
      match readAll what read vs with
      | .ok as => .ok (a :: as)
      | .error e => .error e

/-- Takes in arguments of one sort, up to the first that is of another. -/
def takeIn {α β : Type} (what : String) (read : Value → Option α) (add : β → α → β) :
    β → List Value → Except Error β
  | b, [] => .ok b
  | b, v :: vs =>
    match read v with
    | none => .error (.invalid (.expected what v.typeName))
    | some a => takeIn what read add (add b a) vs

def push {α : Type} (stack : List α) (a : α) : List α := a :: stack

def filterOf? (v : Value) : Option Filter :=
  let f := Filter.ofValue v
  if f.isFilter then some f else none

/-- Adds filters, all of which must hold. All are looked at before the first is added. -/
def filter (d : Description) (args : List Value) : Except Error Description :=
  match readAll "Filter" filterOf? args with
  | .ok fs => .ok ⟨fs.foldl push d.filterStack, d.sortStack, d.fields, d.skipped, d.limited⟩
  | .error e => .error e

/-- Adds sort keys after those that are there. -/
def sort (d : Description) (args : List Value) : Except Error Description :=
  match takeIn "SortSpec" SortSpec.ofRecord? push d.sortStack args with
  | .ok stack => .ok ⟨d.filterStack, stack, d.fields, d.skipped, d.limited⟩
  | .error e => .error e

/-- Adds a field unless one of its name is there. -/
def addField (fields : List Field) (f : Field) : List Field :=
  if fields.any fun g => g.name = f.name then fields else fields ++ [f]

def select (d : Description) (args : List Value) : Except Error Description :=
  match takeIn "Field" Field.ofRecord? addField d.fields args with
  | .ok fields => .ok ⟨d.filterStack, d.sortStack, fields, d.skipped, d.limited⟩
  | .error e => .error e

def skip (d : Description) (n : Value) : Except Error Description :=
  match count "skip" n with
  | .ok n => .ok ⟨d.filterStack, d.sortStack, d.fields, n, d.limited⟩
  | .error e => .error e

def limit (d : Description) (n : Value) : Except Error Description :=
  match count "limit" n with
  | .ok n => .ok ⟨d.filterStack, d.sortStack, d.fields, d.skipped, n⟩
  | .error e => .error e

/-- Equality of descriptions, the declared types of fields included. -/
def same (d e : Description) : Bool :=
  let all (d : Description) := tuple [tuple (Filter.toValues d.filterStack),
    tuple (d.sortStack.map SortSpec.compared), tuple (d.fields.map Field.toValue),
    int d.skipped, int d.limited]
  Value.same (all d) (all e)

def sortEntries (s : SortSpec) : Except Error Value := do
  let name ← s.field.attribute "name"
  let direction ← s.direction.attribute "value"
  pure (dict [(str "field", name), (str "direction", direction)])

def toDict (d : Description) : Except Error Value := do
  let filters ← Filter.toDicts d.filters
  let sorts ← d.sorts.mapM sortEntries
  pure (dict [(str "filters", list filters), (str "sort", list sorts),
    (str "fields", list (d.fields.map fun f => str f.name)), (str "skip", int d.skipped),
    (str "limit", int d.limited)])

end Description

end DocStore
