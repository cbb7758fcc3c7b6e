import DocStore.Document.Path
import DocStore.Value.Order

/-! Whether a document satisfies a query document. Conditions are tried in order and the first that
fails decides; a condition on an array also holds if one of its items satisfies it. -/

namespace DocStore

namespace Value

/-- Place of a value's kind in the order of kinds. -/
def rank : Value → Nat
  | null => 0
  | int _ => 1
  | float _ => 1
  | str _ => 2
  | dict _ => 3
  | list _ => 4
  | uuid _ => 5
  | bytes _ => 6
  | bool _ => 7
  | datetime _ => 8
  | date _ => 8
  | _ => 9

end Value

open Value

/-- The values found at a path, each array followed by its items. -/
def candidates : List Value → List Value
  | [] => []
  | list xs :: vs => list xs :: (xs ++ candidates vs)
  | v :: vs => v :: candidates vs

/-- Null is found where nothing is. -/
def equalsAny (found : List Value) (operand : Value) : Bool :=
  if operand.isNull then found.isEmpty || (candidates found).any isNull
  else (candidates found).any fun v => strictEqual v operand

def relatesAny (r : Relation) (found : List Value) (operand : Value) : Bool :=
  (candidates found).any fun v =>
    !v.isNull && v.rank == operand.rank && (related r v operand).getD false

/-- The letters among option values; others mean nothing. -/
def letterOf? : Value → Option Char
  | str s =>
    match s.toList with
    | [c] => some c
    | _ => none
  | _ => none

def patternOf (operand optionLetters : Value) : Except Error Pattern :=
  match operand with
  | pattern p => .ok p
  | str source =>
    match optionLetters.iterate? with
    | none => .error .kind
    | some letters =>
      if letters.all hashable then
        Pattern.compiled (Pattern.optionsOf (letters.filterMap letterOf?)) (.text source)
      else .error .kind
  | v => .error (.malformed (.patternOperand v))

/-- Searches the texts among the values found; a pattern over bytes cannot search a text. -/
def foundByPattern (found : List Value) (p : Pattern) : Except Error Bool :=
  if p.overBytes && (candidates found).any isStr then .error .kind
  else
    .ok ((candidates found).any fun
      | str s => p.found s
      | _ => false)

def startsWithDollar (s : String) : Bool := s.toList.head? == some '$'

def isOperatorKey : Value → Bool
  | str s => startsWithDollar s
  | _ => false

/-- A document whose keys are all operators is a condition, any other a value to be equal to. -/
def isCondition : Value → Bool
  | dict ps => !ps.isEmpty && ps.all fun p => isOperatorKey p.1
  | _ => false

def relationOf? (op : String) : Option Relation :=
  if op = "$lt" then some .lt
  else if op = "$gt" then some .gt
  else if op = "$lte" then some .le
  else if op = "$gte" then some .ge
  else none

/-- One operator of a condition on the values found; `condition` is all of it. -/
def holdsOperator (found : List Value) (condition : Entries) (op : String) (operand : Value) :
    Except Error Bool :=
  if op = "$eq" then .ok (equalsAny found operand)
  else if op = "$ne" then .ok (!equalsAny found operand)
  else if op = "$exists" then .ok ((!found.isEmpty) == operand.truthy)
  else
    match relationOf? op with
    | some r => .ok (relatesAny r found operand)
    | none =>
      if op = "$in" then
        match operand with
        | list xs => .ok (xs.any (equalsAny found))
        | tuple xs => .ok (xs.any (equalsAny found))
        | ext code data => .ok ([int code, bytes data].any (equalsAny found))
        | v => .error (.malformed (.arrayOperand v))
      else if op = "$regex" then
        (patternOf operand ((Entries.get? (str "$options") condition).getD (str ""))).bind
          (foundByPattern found)
      else if op = "$options" then
        if Entries.contains (str "$regex") condition then .ok true
        else .error (.malformed .loneOptions)
      else .error (.malformed (.queryOperator op))

def holdsOperators (found : List Value) (condition : Entries) : Entries → Except Error Bool
  | [] => .ok true
  | (k, operand) :: rest =>
    match holdsOperator found condition k.bare operand with
    | .ok true => holdsOperators found condition rest
    | r => r

/-- A condition on one path of a document. -/
def matchesField (document : Value) (path : String) (condition : Value) : Except Error Bool :=
  match lookupPath document path with
  | .error e => .error e
  | .ok found =>
    match condition with
    | dict ps =>
      if isCondition (dict ps) then holdsOperators found ps ps
      else .ok (equalsAny found (dict ps))
    | v => .ok (equalsAny found v)

def isGroupKey (k : Value) : Bool := equal k (str "$and") || equal k (str "$or")

/-- A key that is no group: a path, which must be text and no operator. -/
def matchesPath (document k condition : Value) : Except Error Bool :=
  match k with
  | str s =>
    if startsWithDollar s then .error (.malformed (.topLevelOperator s))
    else matchesField document s condition
  | _ => .error .kind

mutual

/-- Whether a document satisfies a query; what counts as false is satisfied by all. -/
def matchesQuery (document : Value) : Value → Except Error Bool
  | dict ps => matchesEntries document ps
  | v => if v.truthy then .error .kind else .ok true
termination_by structural x => x

def matchesEntries (document : Value) : Entries → Except Error Bool
  | [] => .ok true
  | p :: ps =>
    match matchesEntry document p with
    | .ok true => matchesEntries document ps
    | r => r
termination_by structural x => x

def matchesEntry (document : Value) : Value × Value → Except Error Bool
  | (k, list qs) =>
    if isGroupKey k then
      if qs.isEmpty then .error (.malformed (.emptyGroup k.bare))
      else if equal k (str "$and") then matchesAll document qs
      else matchesSome document qs
    else matchesPath document k (list qs)
  | (k, v) =>
    if isGroupKey k then .error (.malformed (.emptyGroup k.bare)) else matchesPath document k v
termination_by structural x => x

def matchesAll (document : Value) : List Value → Except Error Bool
  | [] => .ok true
  | q :: qs =>
    match matchesQuery document q with
    | .ok true => matchesAll document qs
    | r => r
termination_by structural x => x

def matchesSome (document : Value) : List Value → Except Error Bool
  | [] => .ok false
  | q :: qs =>
    match matchesQuery document q with
    | .ok false => matchesSome document qs
    | r => r
termination_by structural x => x

end

end DocStore
