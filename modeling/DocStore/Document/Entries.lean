import DocStore.Error
import DocStore.Value.Equal

/-! Dictionaries as ordered entries: a new key goes to the end, a present key keeps its place. What
is looked up, put and erased under a key is of any type. -/

namespace DocStore

namespace Entries

variable {α : Type}

def get? (k : Value) : List (Value × α) → Option α
  | [] => none
  | p :: ps => if Value.equal p.1 k then some p.2 else get? k ps

def contains (k : Value) (ps : Entries) : Bool := (get? k ps).isSome

def put (k : Value) (v : α) : List (Value × α) → List (Value × α)
  | [] => [(k, v)]
  | p :: ps => if Value.equal p.1 k then (p.1, v) :: ps else p :: put k v ps

def erase (k : Value) : List (Value × α) → List (Value × α)
  | [] => []
  | p :: ps => if Value.equal p.1 k then ps else p :: erase k ps

/-- Entries put one after the other, later values winning. -/
def ofList (ps : List (Value × Value)) : Entries := ps.foldl (fun d p => put p.1 p.2 d) []

def merge (ps qs : Entries) : Entries := qs.foldl (fun d p => put p.1 p.2 d) ps

def keys (ps : Entries) : List Value := ps.map Prod.fst

def values (ps : Entries) : List Value := ps.map Prod.snd

end Entries

/-- What stands under an attribute: a field of a record, or the name or the value of a member. -/
def Value.attribute (name : String) : Value → Except Error Value
  | .record _ fs =>
    match Entries.get? (.str name) fs with
    | some v => .ok v
    | none => .error .kind
  | .member _ own v =>
    if name = "name" then .ok (.str own)
    else if name = "value" then .ok v
    else .error .kind
  | _ => .error .kind

end DocStore
