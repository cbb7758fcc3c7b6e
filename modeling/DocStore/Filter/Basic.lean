import DocStore.Names
import DocStore.Value.Identical

/-! Filters: a comparison of one field, a filter inside an embedded document, or a group. A filter
is checked when it is made; whether it can be compiled shows only later. A member of the enumeration
of operators is equal to its word, so the words stand for both. -/

namespace DocStore

open Value

/-- The declared type of a field. A class or several classes restrict its values; anything else
accepts all. -/
inductive TypeSpec
  | cls (c : ClassRef)
  | absent
  | generic (name args : String)
  | oneOf (ts : List TypeSpec)
  deriving Inhabited

namespace TypeSpec

def object : TypeSpec := .cls (.kind .object)

mutual

def toValue : TypeSpec → Value
  | cls c => .cls c
  | absent => .null
  | generic n a => .generic n a
  | oneOf ts => .tuple (toValues ts)
termination_by structural x => x

def toValues : List TypeSpec → List Value
  | [] => []
  | t :: ts => toValue t :: toValues ts
termination_by structural x => x

end

def label : TypeSpec → String
  | cls c => c.name
  | generic n _ => n
  | t => t.toValue.text

mutual

/-- Whether a value is of one of the types; only classes can be asked. -/
def belongsTo (v : Value) : TypeSpec → Except Error Bool
  | cls c => .ok (v.belongsTo c)
  | oneOf ts => belongsToOfAny v ts
  | _ => .error .kind
termination_by structural x => x

def belongsToOfAny (v : Value) : List TypeSpec → Except Error Bool
  | [] => .ok false
  | t :: ts =>
    match belongsTo v t with
    | .ok false => belongsToOfAny v ts
    | r => r
termination_by structural x => x

end

/-- Whether a value fits: booleans are no integers here, and integers do for floats. -/
def accepts (t : TypeSpec) (v : Value) : Except Error Bool :=
  match t with
  | cls c =>
    if c = .kind .object then .ok true
    else if v.isBool && c = .kind .int then .ok false
    else .ok (v.belongsTo c || (c = .kind .float && v.belongsTo (.kind .int) && !v.isBool))
  | oneOf ts => belongsToOfAny v ts
  | _ => .ok true

end TypeSpec

structure Field where
  name : String
  type : TypeSpec
  named : fieldNameFault? name = none

namespace Field

def ofText (name : String) (type : TypeSpec) : Except Error Field :=
  match h : fieldNameFault? name with
  | none => .ok ⟨name, type, h⟩
  | some f => .error (.invalid f)

def ofValue (name : Value) (type : TypeSpec) : Except Error Field :=
  match name with
  | .str s => ofText s type
  | v => .error (.invalid (.fieldNameKind v.typeName))

def toValue (f : Field) : Value :=
  .record "Field" [(.str "name", .str f.name), (.str "type", f.type.toValue)]

end Field

inductive Operator
  | equal
  | notEqual
  | lessThan
  | greaterThan
  | lessOrEqual
  | greaterOrEqual
  | present
  | regex
  | oneOf
  | subfilter
  | all
  | any
  /-- A value that is no operator, in the place of one. -/
  | other (v : Value)
  deriving DecidableEq, Inhabited

namespace Operator

def words : List (String × Operator) :=
  [("equal", equal), ("notEqual", notEqual), ("lessThan", lessThan), ("greaterThan", greaterThan),
    ("lessOrEqual", lessOrEqual), ("greaterOrEqual", greaterOrEqual), ("exists", present),
    ("regex", regex), ("in", oneOf), ("subfilter", subfilter), ("and", all), ("or", any)]

def toValue : Operator → Value
  | equal => .str "equal"
  | notEqual => .str "notEqual"
  | lessThan => .str "lessThan"
  | greaterThan => .str "greaterThan"
  | lessOrEqual => .str "lessOrEqual"
  | greaterOrEqual => .str "greaterOrEqual"
  | present => .str "exists"
  | regex => .str "regex"
  | oneOf => .str "in"
  | subfilter => .str "subfilter"
  | all => .str "and"
  | any => .str "or"
  | other v => v

def ofName? (n : String) : Option Operator := words.lookup n

def ofName (n : String) : Operator := (ofName? n).getD (other (.str n))

def ofValue : Value → Operator
  | .str n => ofName n
  | .member "Operator" _ (.str n) => ofName n
  | v => other v

/-- Why an operator is refused that a table of operators does not have: a table can only be asked
for what can be a key. -/
def refused (op : Operator) (filterKind : String) : Error :=
  if op.toValue.hashable then .unsupported op.toValue filterKind else .kind

def isOrdered : Operator → Bool
  | lessThan => true
  | greaterThan => true
  | lessOrEqual => true
  | greaterOrEqual => true
  | _ => false

end Operator

/-- The tags that tell filters apart. -/
inductive FilterKind
  | comparison
  | connective
  deriving DecidableEq

namespace FilterKind

/-- The kind whose member of the enumeration a value is equal to. -/
def ofValue? : Value → Option FilterKind
  | .str n => ofText? n
  | .member "FilterKind" _ (.str n) => ofText? n
  | _ => none
where
  ofText? (n : String) : Option FilterKind :=
    if n = "field" then some comparison else if n = "sub" then some connective else none

/-- The attribute that holds what is inside. -/
def inner : FilterKind → String
  | comparison => "value"
  | connective => "filters"

end FilterKind

/-- The classes of filters carry the tag, and so does any object with such an attribute. -/
def Value.filterKind? (v : Value) : Option FilterKind :=
  match v with
  | .record "FieldFilter" _ => some .comparison
  | .record "SubFilter" _ => some .connective
  | .cls (.entity "FieldFilter") => some .comparison
  | .cls (.entity "SubFilter") => some .connective
  | v => (v.attribute "kind").toOption.bind FilterKind.ofValue?

/-- Filters. Among those of a group there can stand any value: a foreign one, which does not carry
the tag of a filter, and one that poses as a filter, since it carries the tag but is none of those
that the constructors make; the filters inside it are what it has for them. -/
inductive Filter
  | field (f : Field) (op : Operator) (value : Value)
  | sub (f : Field) (child : Filter)
  | group (op : Operator) (children : List Filter)
  | posing (kind : FilterKind) (v : Value) (tagged : v.filterKind? = some kind)
    (children : List Filter)
  | foreign (v : Value) (untagged : v.filterKind? = none)

namespace Filter

mutual

def toValue : Filter → Value
  | field f op v =>
    .record "FieldFilter" [(.str "field", f.toValue), (.str "operator", op.toValue),
      (.str "value", v)]
  | sub f c =>
    .record "FieldFilter" [(.str "field", f.toValue), (.str "operator", .str "subfilter"),
      (.str "value", toValue c)]
  | group op cs =>
    .record "SubFilter" [(.str "operator", op.toValue), (.str "filters", .tuple (toValues cs))]
  | posing _ v _ _ => v
  | foreign v _ => v
termination_by structural x => x

def toValues : List Filter → List Value
  | [] => []
  | c :: cs => toValue c :: toValues cs
termination_by structural x => x

end

/-- Whether this is an object of a class of filters. -/
def isFilter : Filter → Bool
  | posing _ v _ _ => v.belongsTo (.entity "FieldFilter") || v.belongsTo (.entity "SubFilter")
  | foreign _ _ => false
  | _ => true

def text (f : Filter) : String := f.toValue.text

def incompatible (f : Field) (v : Value) : Error :=
  .invalid (.incompatible v f.name f.type.label)

/-- Every value but null must fit the field's type. -/
def checkValues (f : Field) : List Value → Except Error Unit
  | [] => .ok ()
  | v :: vs =>
    if v.isNull then checkValues f vs
    else
      match f.type.accepts v with
      | .ok true => checkValues f vs
      | .ok false => .error (incompatible f v)
      | .error e => .error e

def members? : Value → Option (List Value)
  | .list xs => some xs
  | .tuple xs => some xs
  | .set _ xs => some xs
  | .ext code data => some [.int code, .bytes data]
  | _ => none

def compare (f : Field) (op : Operator) (v : Value) : Except Error Filter :=
  match op with
  | .subfilter => .error (.invalid (.subfilterValue f.name v.typeName))
  | .oneOf =>
    match members? v with
    | none => .error (.invalid (.inValue f.name v.typeName))
    | some xs => (checkValues f xs).map fun _ => field f op (.tuple xs)
  | .present =>
    if v.isBool then .ok (field f op v) else .error (.invalid (.existsValue f.name v.typeName))
  | .regex =>
    match v with
    | .str _ => .ok (field f op v)
    | .pattern _ => .ok (field f op v)
    | v => .error (.invalid (.regexValue f.name v.typeName))
  | .other w => if w.hashable || w.isSet then .ok (field f (.other w) v) else .error .kind
  | op =>
    if op = .equal ∨ op = .notEqual then (checkValues f [v]).map fun _ => field f op v
    else if op.isOrdered then
      if v.isNull then .error (incompatible f v) else (checkValues f [v]).map fun _ => field f op v
    else .ok (field f op v)

def typeOf : Value → TypeSpec
  | .cls c => .cls c
  | .generic n a => .generic n a
  | .tuple xs => .oneOf (xs.map fun
    | .cls c => .cls c
    | .generic n a => .generic n a
    | _ => .absent)
  | _ => .absent

/-- A value that is not as the constructors make filters, with what would be the filters in it. -/
def ofOther (v : Value) (children : FilterKind → List Filter) : Filter :=
  match h : v.filterKind? with
  | some k => posing k v h (children k)
  | none => foreign v h

/-- A value that holds no filters. -/
def ofBare (v : Value) : Filter := ofOther v fun _ => []

mutual

/-- The filter that a value stands for. -/
def ofValue : Value → Filter
  | .record "FieldFilter" [(k, .record "Field" [(n, .str name), (t, type)]), (o, op), (w, v)] =>
    match Field.ofText name (typeOf type), Operator.ofValue op with
    | .ok f, .subfilter => sub f (ofValue v)
    | .ok f, op => field f op v
    | .error _, _ =>
      ofOther (.record "FieldFilter"
        [(k, .record "Field" [(n, .str name), (t, type)]), (o, op), (w, v)]) fun _ => [ofValue v]
  | .record "SubFilter" [(_, op), (_, .tuple xs)] => group (Operator.ofValue op) (ofValues xs)
  | .record c fs => ofOther (.record c fs) fun k => partsIn k fs
  | v => ofBare v
termination_by structural x => x

def ofValues : List Value → List Filter
  | [] => []
  | x :: xs => ofValue x :: ofValues xs
termination_by structural x => x

def partsIn (k : FilterKind) : Entries → List Filter
  | [] => []
  | p :: ps => if Value.equal p.1 (.str k.inner) then partsOf k p else partsIn k ps
termination_by structural x => x

def partsOf (k : FilterKind) : Value × Value → List Filter
  | (_, v) =>
    match k with
    | .comparison => [ofValue v]
    | .connective => itemsOf v
termination_by structural x => x

def itemsOf : Value → List Filter
  | .list xs => ofValues xs
  | .tuple xs => ofValues xs
  | .set _ xs => ofValues xs
  | .dict ps => keysOf ps
  | v => (v.iterate?.getD []).map ofBare
termination_by structural x => x

def keysOf : Entries → List Filter
  | [] => []
  | p :: ps => keyOf p :: keysOf ps
termination_by structural x => x

def keyOf : Value × Value → Filter
  | (k, _) => ofValue k
termination_by structural x => x

end

/-- A comparison whose value may be a filter, as an embedded filter needs. -/
def make (f : Field) (op : Operator) (v : Value) : Except Error Filter :=
  match op, ofValue v with
  | .subfilter, c =>
    if c.isFilter then .ok (sub f c)
    else .error (.invalid (.subfilterValue f.name v.typeName))
  | op, _ => compare f op v

end Filter

end DocStore
