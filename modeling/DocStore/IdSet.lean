import DocStore.Error
import DocStore.Value.Equal

/-! Sets of identifiers that were seen. Of equal identifiers the first one seen is kept. -/

namespace DocStore

structure IdSet where
  /-- Distinct identifiers, in the order they were first seen. -/
  ids : List Value

namespace IdSet

def empty : IdSet := ⟨[]⟩

def size (s : IdSet) : Nat := s.ids.length

def holds (s : IdSet) (v : Value) : Bool := s.ids.any (Value.equal v)

/-- Whether a value is among the identifiers; a set is looked for as one that cannot change. -/
def contains (s : IdSet) (v : Value) : Except Error Bool :=
  match v with
  | .set _ xs => .ok (s.holds (.set true xs))
  | v => if v.hashable then .ok (s.holds v) else .error .kind

def add (s : IdSet) (v : Value) : Except Error IdSet :=
  if !v.hashable then .error .kind
  else if s.holds v then .ok s
  else .ok ⟨s.ids ++ [v]⟩

/-- Adds values one after the other; those before one that cannot be an identifier stay. -/
def addAll (s : IdSet) : List Value → IdSet × Except Error Unit
  | [] => (s, .ok ())
  | v :: vs =>
    match s.add v with
    | .ok s => addAll s vs
    | .error e => (s, .error e)

def addItems (s : IdSet) (v : Value) : IdSet × Except Error Unit :=
  match v.iterate? with
  | some vs => s.addAll vs
  | none => (s, .error .kind)

def ofItems (v : Value) : Except Error IdSet :=
  match empty.addItems v with
  | (s, .ok _) => .ok s
  | (_, .error e) => .error e

def toValue (s : IdSet) : Value := .set true s.ids

def text (s : IdSet) : String := s!"SessionIdCache(size={s.size})"

end IdSet

end DocStore
