import DocStore.Value.Basic

/-! Equality of values. Numbers are equal by value whatever their kind, dictionaries and sets
whatever their order. A number that is no number differs even from itself, except where a value is
compared with itself. So does a handle: which object it is is not known, and two handles are never
taken for one object. What is said of values that are equal to themselves leaves both out. -/

namespace DocStore

namespace Value

def number? : Value → Option Exact
  | bool b => some (.ofInt (if b then 1 else 0))
  | int n => some (.ofInt n)
  | float x => some x.toExact
  | _ => none

def isNan (v : Value) : Bool :=
  match v.number? with
  | some .nan => true
  | _ => false

/-- Equality of two numbers; `itself` makes NaN equal to itself. -/
def numberEqual (itself : Bool) (a b : Value) : Bool :=
  match a.number?, b.number? with
  | some .nan, some .nan => itself
  | some x, some y => x.compare y == some .eq
  | _, _ => false

mutual

def eqv (itself : Bool) : Value → Value → Bool
  | null, b => b.isNull
  | str s, b => match b with | str t => s == t | _ => false
  | list xs, b => match b with | list ys => eqvList itself xs ys | _ => false
  | tuple xs, b =>
    match b with
    | tuple ys => eqvList itself xs ys
    | ext code data => eqvList itself xs [int code, bytes data]
    | _ => false
  | ext code data, b =>
    match b with
    | ext code' data' => code == code' && data == data'
    | tuple [c, bytes data'] => numberEqual itself (int code) c && data == data'
    | _ => false
  | dict ps, b =>
    match b with
    | dict qs => ps.length == qs.length && withinDict itself ps qs
    | _ => false
  | set _ xs, b =>
    match b with
    | set _ ys => xs.length == ys.length && withinSet itself xs ys
    | _ => false
  | bytes x, b => match b with | bytes y => x == y | _ => false
  | uuid x, b => match b with | uuid y => x == y | _ => false
  | datetime x, b => match b with | datetime y => x.compare y == some .eq | _ => false
  | date x, b => match b with | date y => x == y | _ => false
  | pattern x, b => match b with | pattern y => x == y | _ => false
  | member owner name _, b =>
    match b with
    | member owner' name' _ => owner == owner' && name == name'
    | _ => false
  | record c fs, b => match b with | record d gs => c == d && eqvEntries itself fs gs | _ => false
  | cls c, b => match b with | cls d => c == d | _ => false
  | timestamp s n, b => match b with | timestamp s' n' => s == s' && n == n' | _ => false
  | generic n a, b => match b with | generic n' a' => n == n' && a == a' | _ => false
  | handle, b => match b with | handle => itself | _ => false
  | bool x, b => numberEqual itself (bool x) b
  | int x, b => numberEqual itself (int x) b
  | float x, b => numberEqual itself (float x) b
termination_by structural x => x

def eqvList (itself : Bool) : List Value → List Value → Bool
  | [], [] => true
  | x :: xs, y :: ys => eqv itself x y && eqvList itself xs ys
  | _, _ => false
termination_by structural x => x

/-- Every entry has an equal one in the other dictionary. -/
def withinDict (itself : Bool) : Entries → Entries → Bool
  | [], _ => true
  | p :: ps, qs => hasEntry itself p qs && withinDict itself ps qs
termination_by structural x => x

def hasEntry (itself : Bool) : Value × Value → Entries → Bool
  | (k, v), qs =>
    match qs.find? fun q => eqv itself k q.1 with
    | some q => eqv itself v q.2
    | none => false
termination_by structural x => x

def withinSet (itself : Bool) : List Value → List Value → Bool
  | [], _ => true
  | x :: xs, ys => (ys.any fun y => eqv itself x y) && withinSet itself xs ys
termination_by structural x => x

/-- Fields are equal in order. -/
def eqvEntries (itself : Bool) : Entries → Entries → Bool
  | [], [] => true
  | p :: ps, q :: qs => eqvEntry itself p q && eqvEntries itself ps qs
  | _, _ => false
termination_by structural x => x

def eqvEntry (itself : Bool) : Value × Value → Value × Value → Bool
  | (k, v), q => eqv itself k q.1 && eqv itself v q.2
termination_by structural x => x

end

/-- Equality of two values that come from different places. -/
def equal (a b : Value) : Bool := eqv false a b

/-- Equality of what may be one and the same value. -/
def same (a b : Value) : Bool := eqv true a b

/-- Equality that keeps booleans apart from numbers at the top. -/
def strictEqual (a b : Value) : Bool := a.isBool == b.isBool && equal a b

/-- Classes of records that cannot change. -/
def isFrozen (c : String) : Bool :=
  c == "Field" || c == "FieldFilter" || c == "SubFilter" || c == "SortSpec"

mutual

/-- Whether a value can be a key: what can change cannot. Of which classes records cannot change is
asked of `frozen`. -/
def hashableIn (frozen : String → Bool) : Value → Bool
  | list _ => false
  | dict _ => false
  | set unchanging _ => unchanging
  | tuple xs => hashableListIn frozen xs
  | record c fs => frozen c && hashableFieldsIn frozen fs
  | _ => true
termination_by structural x => x

def hashableListIn (frozen : String → Bool) : List Value → Bool
  | [] => true
  | x :: xs => hashableIn frozen x && hashableListIn frozen xs
termination_by structural x => x

def hashableFieldsIn (frozen : String → Bool) : Entries → Bool
  | [] => true
  | f :: fs => hashableFieldIn frozen f && hashableFieldsIn frozen fs
termination_by structural x => x

def hashableFieldIn (frozen : String → Bool) : Value × Value → Bool
  | (_, v) => hashableIn frozen v
termination_by structural x => x

end

/-- Whether a value can be a key where no classes but those of queries are known. A record of a
class of a catalog is taken for one that can change. -/
def hashable (v : Value) : Bool := hashableIn isFrozen v

end Value

end DocStore
