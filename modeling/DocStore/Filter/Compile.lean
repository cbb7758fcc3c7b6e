import DocStore.Codec.Encode
import DocStore.Filter.Dictionary
import DocStore.Value.Order

/-! Filters as query documents. A comparison becomes a condition on a path, an embedded filter puts
its field before the paths inside it, and groups become lists of queries. -/

namespace DocStore

open Value

namespace Operator

def condition? : Operator → Option String
  | equal => some "$eq"
  | notEqual => some "$ne"
  | present => some "$exists"
  | lessThan => some "$lt"
  | greaterThan => some "$gt"
  | lessOrEqual => some "$lte"
  | greaterOrEqual => some "$gte"
  | regex => some "$regex"
  | oneOf => some "$in"
  | _ => none

def group? : Operator → Option String
  | all => some "$and"
  | any => some "$or"
  | _ => none

end Operator

namespace Filter

def checkDepth (limit : Value) (depth : Nat) : Except Error Unit :=
  match related .gt (int depth) limit with
  | some false => .ok ()
  | some true => .error (.depth limit)
  | none => .error .kind

/-- The operand of a comparison, as the store keeps values. -/
def operand (cat : Catalog) (s : Schema) (op : Operator) (v : Value) : Naming Value :=
  match op, v with
  | .oneOf, tuple xs => list <$> Codec.toValues cat s xs
  | .regex, pattern p => pure (pattern p)
  | .regex, v => do
    match (← Codec.toValue cat s v).source? with
    | some source => do
      let p ← liftExcept (Pattern.compiled Regex.Options.none source)
      pure (pattern p)
    | none => throw .kind
  | _, v => Codec.toValue cat s v

def compileField (cat : Catalog) (s : Schema) (name : String) (op : Operator) (v : Value) :
    Naming Value :=
  match op.condition? with
  | none => throw (op.refused "FieldFilter")
  | some word => do
    let w ← operand cat s op v
    pure (dict [(str name, dict [(str word, w)])])

/-- The name and the operator of what poses as a comparison. -/
def posedField (v : Value) : Except Error (String × Operator) := do
  let field ← v.attribute "field"
  match ← field.attribute "name" with
  | str n => do
    let op ← v.attribute "operator"
    pure (n, .ofValue op)
  | _ => throw .kind

/-- The value of what poses as a comparison; no operator but those for conditions asks for it. -/
def posedOperand (v : Value) (op : Operator) : Except Error Value :=
  if op.condition?.isNone then .ok null
  else
    match v.attribute "value" with
    | .error e => .error e
    | .ok x =>
      if op = .oneOf then
        match x.iterate? with
        | some xs => .ok (tuple xs)
        | none => .error .kind
      else .ok x

/-- The word for what poses as a group, whose filters can be gone through. -/
def posedGroup (v : Value) : Except Error String := do
  let op ← v.attribute "operator"
  match (Operator.ofValue op).group? with
  | none => throw ((Operator.ofValue op).refused "SubFilter")
  | some word => do
    let inner ← v.attribute "filters"
    if inner.iterate?.isSome then pure word else throw .kind

mutual

/-- The query document of a filter that stands at a depth, under a path. -/
def compileAt (cat : Catalog) (s : Schema) (limit : Value) (depth : Nat) (path : String) :
    Filter → Naming Value
  | field f op v => do
    liftExcept (checkDepth limit depth)
    compileField cat s (path ++ f.name) op v
  | sub f c => do
    liftExcept (checkDepth limit depth)
    compileAt cat s limit (depth + 1) (path ++ f.name ++ ".") c
  | group op cs => do
    liftExcept (checkDepth limit depth)
    match op.group? with
    | none => throw (op.refused "SubFilter")
    | some word => do
      let qs ← compileEach cat s limit (depth + 1) path cs
      pure (dict [(str word, list qs)])
  | posing .comparison v _ cs => do
    liftExcept (checkDepth limit depth)
    let (name, op) ← liftExcept (posedField v)
    if op = .subfilter then do
      match ← compileEach cat s limit (depth + 1) (path ++ name ++ ".") cs with
      | [q] => pure q
      | _ => throw .kind
    else do
      let x ← liftExcept (posedOperand v op)
      compileField cat s (path ++ name) op x
  | posing .connective v _ cs => do
    liftExcept (checkDepth limit depth)
    let word ← liftExcept (posedGroup v)
    let qs ← compileEach cat s limit (depth + 1) path cs
    pure (dict [(str word, list qs)])
  | foreign v _ => do
    liftExcept (checkDepth limit depth)
    throw (.variant v.typeName)
termination_by structural x => x

def compileEach (cat : Catalog) (s : Schema) (limit : Value) (depth : Nat) (path : String) :
    List Filter → Naming (List Value)
  | [] => pure []
  | c :: cs => do
    let q ← compileAt cat s limit depth path c
    let qs ← compileEach cat s limit depth path cs
    pure (q :: qs)
termination_by structural x => x

end

def compile (cat : Catalog) (s : Schema) (limit : Value) (path : String) (f : Filter) :
    Naming Value :=
  compileAt cat s limit 1 path f

end Filter

/-- A query document after a constraint was added, as far as that went. -/
structure Merged where
  target : Entries
  result : Except Error Unit

namespace Merged

def extend (target : Entries) (clauses : Except Error (List Value)) : Merged :=
  let group := (Entries.get? (str "$and") target).getD (list [])
  let target := Entries.put (str "$and") group target
  match group, clauses with
  | list qs, .ok more => ⟨Entries.put (str "$and") (list (qs ++ more)) target, .ok ()⟩
  | _, _ => ⟨target, .error .kind⟩

def items (v : Value) : Except Error (List Value) :=
  match v.iterate? with
  | some xs => .ok xs
  | none => .error .kind

def sharesKey (ps qs : Entries) : Bool := ps.any fun p => Entries.contains p.1 qs

/-- Adds one entry of a query document. What would overwrite a condition stands beside it. -/
def addEntry (target : Entries) (k condition : Value) : Merged :=
  if equal k (str "$and") then extend target (items condition)
  else if equal k (str "$or") then
    if Entries.contains (str "$or") target then extend target (.ok [dict [(str "$or", condition)]])
    else
      match items condition with
      | .ok qs => ⟨Entries.put k (list qs) target, .ok ()⟩
      | .error e => ⟨target, .error e⟩
  else
    match Entries.get? k target, condition with
    | none, _ => ⟨Entries.put k condition target, .ok ()⟩
    | some (dict ps), dict qs =>
      if sharesKey ps qs then extend target (.ok [dict [(k, condition)]])
      else ⟨Entries.put k (dict (Entries.merge ps qs)) target, .ok ()⟩
    | some _, _ => extend target (.ok [dict [(k, condition)]])

def addEntries (target : Entries) : Entries → Merged
  | [] => ⟨target, .ok ()⟩
  | (k, condition) :: rest =>
    let m := addEntry target k condition
    match m.result with
    | .ok _ => addEntries m.target rest
    | .error _ => m

end Merged

/-- Adds a query document to another, so that both must hold; the first is given as it is after the
addition, even one that failed half way. -/
def mergeQuery (target fragment : Value) : Value × Except Error Unit :=
  match fragment, target with
  | dict [], _ => (target, .ok ())
  | dict ps, dict ts =>
    let m := Merged.addEntries ts ps
    (dict m.target, m.result)
  | _, _ => (target, .error .kind)

namespace Filter

def compileAll (cat : Catalog) (s : Schema) (limit : Value) : Entries → List Filter → Naming Entries
  | query, [] => pure query
  | query, f :: fs => do
    match ← compile cat s limit "" f with
    | dict ps => do
      let m := Merged.addEntries query ps
      match m.result with
      | .ok _ => compileAll cat s limit m.target fs
      | .error e => throw e
    | _ => throw .kind

end Filter

end DocStore
