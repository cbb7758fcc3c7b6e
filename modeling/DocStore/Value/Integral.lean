import DocStore.Error

/-! Values as integers: numbers are cut toward zero, and texts are read. -/

namespace DocStore

namespace Exact

/-- The integral part of a number. -/
def truncate : Exact → Except Error Int
  | .finite num scale => .ok (Int.tdiv num (Nat.pow 2 scale))
  | .infinite _ => .error .overflow
  | .nan => .error .value

end Exact

namespace Value

def orValue {α : Type} (a : Option α) : Except Error α :=
  match a with
  | some a => .ok a
  | none => .error .value

/-- Members of enumerations are no integers, except the directions to sort in. -/
def toInteger : Value → Except Error Int
  | bool b => .ok (if b then 1 else 0)
  | int n => .ok n
  | uuid u => .ok u.toNat
  | member "SortDirection" _ (int n) => .ok n
  | float x => x.toExact.truncate
  | str s => orValue (Integer.ofText? s)
  | bytes bs =>
    if bs.all (· < 128) then
      orValue (Integer.ofText? (String.ofList (bs.map fun b => Char.ofNat b.toNat)))
    else .error .value
  | _ => .error .kind

/-- The place in a sequence that a value names: only integers and booleans do. -/
def index? : Value → Option Int
  | bool b => some (if b then 1 else 0)
  | int n => some n
  | _ => none

end Value

end DocStore
