import DocStore.Document.Path

/-! The rules for names of collections and fields, and for counts. -/

namespace DocStore

def maxCollectionName : Nat := 120

def maxFieldName : Nat := 1024

def isCollectionChar (c : Char) : Bool := c.isAlphanum || c == '_' || c == '-' || c == '.'

/-- One or more characters of the collection alphabet, and perhaps a line break after them. -/
def isCollectionText (cs : List Char) : Bool :=
  match cs.dropWhile isCollectionChar with
  | [] => !cs.isEmpty
  | ['\n'] => 1 < cs.length
  | _ => false

def collectionName (name : Value) : Except Error String :=
  match name with
  | .str s =>
    let cs := s.toList
    if cs.isEmpty then .error (.invalid .collectionNameEmpty)
    else if maxCollectionName < cs.length then .error (.invalid (.collectionNameLength cs.length))
    else if isCollectionText cs then .ok s
    else .error (.invalid (.collectionNameChars s))
  | v => .error (.invalid (.collectionNameKind v.typeName))

def segmentFault? (name : String) : List (List Char) → Option Invalid
  | [] => none
  | [] :: _ => some (.fieldNameGap name)
  | (c :: _) :: rest => if c = '$' then some (.fieldNameDollar name) else segmentFault? name rest

/-- What is wrong with the name of a field, which may be a dotted path. -/
def fieldNameFault? (name : String) : Option Invalid :=
  let cs := name.toList
  if cs.isEmpty then some .fieldNameEmpty
  else if maxFieldName < cs.length then some (.fieldNameLength cs.length)
  else if cs.contains '\x00' then some (.fieldNameNul name)
  else segmentFault? name (splitDots cs)

def fieldName (name : Value) : Except Error String :=
  match name with
  | .str s =>
    match fieldNameFault? s with
    | none => .ok s
    | some f => .error (.invalid f)
  | v => .error (.invalid (.fieldNameKind v.typeName))

/-- A count such as how many to skip: an integer, not below zero, and no boolean. -/
def count (name : String) (v : Value) : Except Error Nat :=
  match v with
  | .int n => if n < 0 then .error (.invalid (.countNegative name n)) else .ok n.toNat
  | v => .error (.invalid (.countKind name v.typeName))

end DocStore
