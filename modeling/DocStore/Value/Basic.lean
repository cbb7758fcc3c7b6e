import DocStore.Calendar.Iso
import DocStore.Number.Shortest
import DocStore.Regex.Pattern
import DocStore.Uuid

/-! The values that documents, queries and objects are made of, and the classes they belong to. A
value is a tree; `Document.Objects` has documents in which one dictionary stands at two places. -/

namespace DocStore

/-- The built-in kinds of values. -/
inductive Kind
  | object
  | null
  | bool
  | int
  | float
  | str
  | list
  | dict
  | bytes
  | tuple
  | set
  | frozenset
  | uuid
  | datetime
  | date
  | pattern
  | ext
  | timestamp
  | type
  | enumType
  | generic
  deriving DecidableEq, Inhabited

namespace Kind

def name : Kind → String
  | object => "object"
  | null => "NoneType"
  | bool => "bool"
  | int => "int"
  | float => "float"
  | str => "str"
  | list => "list"
  | dict => "dict"
  | bytes => "bytes"
  | tuple => "tuple"
  | set => "set"
  | frozenset => "frozenset"
  | uuid => "UUID"
  | datetime => "datetime"
  | date => "date"
  | pattern => "Pattern"
  | ext => "ExtType"
  | timestamp => "Timestamp"
  | type => "type"
  | enumType => "EnumType"
  | generic => "_GenericAlias"

/-- The package a kind is named in, if it is not always in scope. -/
def home? : Kind → Option String
  | uuid => some "uuid"
  | datetime => some "datetime"
  | date => some "datetime"
  | pattern => some "re"
  | ext => some "msgpack.ext"
  | timestamp => some "msgpack.ext"
  | enumType => some "enum"
  | generic => some "typing"
  | _ => none

end Kind

/-- A class: a kind, a class of records, or an enumeration. -/
inductive ClassRef
  | kind (k : Kind)
  | entity (name : String)
  | enumeration (name : String)
  deriving DecidableEq, Inhabited

namespace ClassRef

def name : ClassRef → String
  | kind k => k.name
  | entity n => n
  | enumeration n => n

def text : ClassRef → String
  | kind k =>
    match k.home? with
    | some home => s!"<class '{home}.{k.name}'>"
    | none => s!"<class '{k.name}'>"
  | entity n => s!"<class 'models.{n}'>"
  | enumeration n => s!"<enum '{n}'>"

end ClassRef

/-- The values of the store. A dictionary keeps the order of its entries; a record is an object of
a class with its fields; a handle is an object about which nothing more is known. -/
inductive Value
  | null
  | bool (b : Bool)
  | int (n : Int)
  | float (x : Binary64)
  | str (s : String)
  | list (items : List Value)
  | dict (entries : List (Value × Value))
  | bytes (bs : List UInt8)
  | uuid (u : Uuid)
  | datetime (t : DateTime)
  | date (d : Date)
  | tuple (items : List Value)
  | set (frozen : Bool) (items : List Value)
  | pattern (p : Pattern)
  | member (owner name : String) (value : Value)
  | record (cls : String) (fields : List (Value × Value))
  | cls (c : ClassRef)
  | ext (code : Int) (data : List UInt8)
  | timestamp (seconds : Int) (nanos : Nat)
  | generic (name args : String)
  | handle
  deriving Inhabited

/-- The entries of a dictionary, or the fields of a record with their names as keys, in order. -/
abbrev Entries := List (Value × Value)

namespace Value

def classOf : Value → ClassRef
  | null => .kind .null
  | bool _ => .kind .bool
  | int _ => .kind .int
  | float _ => .kind .float
  | str _ => .kind .str
  | list _ => .kind .list
  | dict _ => .kind .dict
  | bytes _ => .kind .bytes
  | uuid _ => .kind .uuid
  | datetime _ => .kind .datetime
  | date _ => .kind .date
  | tuple _ => .kind .tuple
  | set frozen _ => .kind (if frozen then .frozenset else .set)
  | pattern _ => .kind .pattern
  | member owner _ _ => .enumeration owner
  | record c _ => .entity c
  | cls (.enumeration _) => .kind .enumType
  | cls _ => .kind .type
  | ext _ _ => .kind .ext
  | timestamp _ _ => .kind .timestamp
  | generic _ _ => .kind .generic
  | handle => .kind .object

def typeName (v : Value) : String := v.classOf.name

/-- Whether a value belongs to a class: booleans are integers, points in time are dates, extension
values are tuples, and everything is an object. -/
def belongsTo (v : Value) (c : ClassRef) : Bool :=
  c == .kind .object || v.classOf == c ||
    match v, c with
    | bool _, .kind .int => true
    | datetime _, .kind .date => true
    | ext _ _, .kind .tuple => true
    | cls (.enumeration _), .kind .type => true
    | _, _ => false

def isNull : Value → Bool
  | null => true
  | _ => false

def isBool : Value → Bool
  | bool _ => true
  | _ => false

def isDict : Value → Bool
  | dict _ => true
  | _ => false

def isStr : Value → Bool
  | str _ => true
  | _ => false

def isSet : Value → Bool
  | set _ _ => true
  | _ => false

/-- What counts as true where a condition is wanted: zero and what is empty do not. -/
def truthy : Value → Bool
  | null => false
  | bool b => b
  | int n => n != 0
  | float x => !x.isZero
  | str s => s != ""
  | list xs => !xs.isEmpty
  | dict ps => !ps.isEmpty
  | bytes bs => !bs.isEmpty
  | tuple xs => !xs.isEmpty
  | set _ xs => !xs.isEmpty
  | _ => true

def ofSource : Regex.Source → Value
  | .text s => str s
  | .bytes bs => bytes bs

/-- What a pattern can be made of: text or bytes. -/
def source? : Value → Option Regex.Source
  | str s => some (.text s)
  | bytes bs => some (.bytes bs)
  | _ => none

/-- The members of a sequence that is not text; an extension value is its code and its bytes. -/
def sequence? : Value → Option (List Value)
  | list xs => some xs
  | tuple xs => some xs
  | ext code data => some [int code, bytes data]
  | _ => none

/-- What iteration over a value gives, if it can be iterated. -/
def iterate? : Value → Option (List Value)
  | str s => some (s.toList.map fun c => str (String.singleton c))
  | bytes bs => some (bs.map fun b => int b.toNat)
  | dict ps => some (ps.map Prod.fst)
  | set _ xs => some xs
  | v => v.sequence?

end Value

end DocStore
