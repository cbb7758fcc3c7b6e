import DocStore.Filter.Basic

/-! The dictionary form of filters. Patterns are taken apart into source and option letters;
declared types are not kept. -/

namespace DocStore

open Value

namespace Filter

/-- The entries for a value, a pattern being written as its source and letters. -/
def valueEntries (v : Value) : Entries :=
  match v with
  | .pattern p => [(str "value", ofSource p.source), (str "flags", str p.letters)]
  | v => [(str "value", v)]

def comparisonDict (name : Value) (op : Operator) (values : Entries) : Value :=
  dict ([(str "type", str "field"), (str "field", name), (str "operator", op.toValue.worth)] ++
    values)

def asArray : Value → Value
  | tuple xs => list xs
  | v => v

/-- The form of a comparison whose field is no field, from the forms of the filters inside it. -/
def posedDict (v : Value) (inner : Except Error (List Value)) : Except Error Value := do
  let field ← v.attribute "field"
  let name ← field.attribute "name"
  let op := Operator.ofValue (← v.attribute "operator")
  let operand ← v.attribute "value"
  if op = .subfilter then
    match ← inner with
    | [d] => pure (comparisonDict name op [(str "value", d)])
    | _ => throw .kind
  else
    let operand := if op = .oneOf then asArray operand else operand
    pure (comparisonDict name op (valueEntries operand))

mutual

def toDict : Filter → Except Error Value
  | field f op v =>
    .ok (comparisonDict (str f.name) op (valueEntries (if op = .oneOf then asArray v else v)))
  | sub f c =>
    match toDict c with
    | .ok d => .ok (comparisonDict (str f.name) .subfilter [(str "value", d)])
    | .error e => .error e
  | group op cs =>
    match toDicts cs with
    | .ok ds =>
      .ok (dict [(str "type", str "sub"), (str "operator", op.toValue.worth),
        (str "filters", list ds)])
    | .error e => .error e
  | posing k v _ cs =>
    if k = .comparison ∧ v.belongsTo (.entity "FieldFilter") then posedDict v (toDicts cs)
    else .error .kind
  | foreign _ _ => .error .kind
termination_by structural x => x

def toDicts : List Filter → Except Error (List Value)
  | [] => .ok []
  | c :: cs =>
    match toDict c with
    | .error e => .error e
    | .ok d =>
      match toDicts cs with
      | .ok ds => .ok (d :: ds)
      | .error e => .error e
termination_by structural x => x

end

def optionsFrom : List Value → Regex.Options → Except (Option PatternFault) Regex.Options
  | [], o => .ok o
  | v :: vs, o =>
    if !v.hashable then .error none
    else
      match v with
      | str s =>
        match s.toList with
        | [c] =>
          if Pattern.letterOptions.any (·.1 == c) then optionsFrom vs ((o.set true c).getD o)
          else .error (some (.letter v))
        | _ => .error (some (.letter v))
      | _ => .error (some (.letter v))

def compilePattern (source letters : Value) : Except Error Pattern :=
  match letters.iterate? with
  | none => .error .kind
  | some ls =>
    match optionsFrom ls Regex.Options.none with
    | .error (some (.letter l)) => .error (.letter l)
    | .error _ => .error .kind
    | .ok o =>
      match source with
      | .pattern p => if o = Regex.Options.none then .ok p else .error .value
      | v =>
        match v.source? with
        | some source => Pattern.compiled o source
        | none => .error .kind

/-- Why a pattern with letters was refused, in the words of the dictionary form. -/
def faultOf : Error → PatternFault
  | .letter l => .letter l
  | _ => .unreadable

/-- The value beside a field: with option letters it is a pattern. That a number of rounds is too
large is not said to be the fault of the dictionary. -/
def readValue (data : Entries) : Except Error Value :=
  let v := (Entries.get? (str "value") data).getD null
  match Entries.get? (str "flags") data with
  | none => .ok v
  | some letters =>
    match compilePattern v letters with
    | .ok p => .ok (.pattern p)
    | .error .overflow => .error .overflow
    | .error e => .error (.invalid (.filterPattern (dict data) (faultOf e)))

def readField (data : Entries) : Except Error Field :=
  match Entries.get? (str "field") data with
  | none => .error .key
  | some n => Field.ofValue n .object

def readOperator (data : Entries) : Except Error Operator :=
  match Entries.get? (str "operator") data with
  | some (str n) =>
    match Operator.ofName? n with
    | some op => .ok op
    | none => .error (.invalid (.filterOperator (dict data)))
  | _ => .error (.invalid (.filterOperator (dict data)))

mutual

def ofDict : Value → Except Error Filter
  | dict ps =>
    match readOperator ps with
    | .error e => .error e
    | .ok op =>
      let kind := (Entries.get? (str "type") ps).getD (str "field")
      if equal kind (str "field") then
        if op = .subfilter then
          match childIn ps with
          | .error e => .error e
          | .ok c =>
            match readField ps with
            | .ok f => .ok (sub f c)
            | .error e => .error e
        else
          match readValue ps with
          | .error e => .error e
          | .ok v =>
            match readField ps with
            | .ok f => compare f op v
            | .error e => .error e
      else if equal kind (str "sub") then
        match childrenIn ps with
        | .ok cs => .ok (group op cs)
        | .error e => .error e
      else .error (.invalid (.filterType kind))
  | _ => .error .kind
termination_by structural x => x

def childIn : Entries → Except Error Filter
  | [] => .error .kind
  | p :: ps => if equal p.1 (str "value") then ofDictEntry p else childIn ps
termination_by structural x => x

def ofDictEntry : Value × Value → Except Error Filter
  | (_, v) => ofDict v
termination_by structural x => x

def childrenIn : Entries → Except Error (List Filter)
  | [] => .error .key
  | p :: ps => if equal p.1 (str "filters") then ofDictsEntry p else childrenIn ps
termination_by structural x => x

def ofDictsEntry : Value × Value → Except Error (List Filter)
  | (_, list xs) => ofDicts xs
  | (_, tuple xs) => ofDicts xs
  | (_, v) =>
    match v.iterate? with
    | some [] => .ok []
    | _ => .error .kind
termination_by structural x => x

def ofDicts : List Value → Except Error (List Filter)
  | [] => .ok []
  | x :: xs =>
    match ofDict x with
    | .error e => .error e
    | .ok c =>
      match ofDicts xs with
      | .ok cs => .ok (c :: cs)
      | .error e => .error e
termination_by structural x => x

end

end Filter

end DocStore
