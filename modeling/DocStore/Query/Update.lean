import DocStore.Query.Match

/-! Update documents. All operators are checked before anything changes; then values are set, fields
removed and fields renamed, in that order. A step that fails leaves what the steps before it did. -/

namespace DocStore

open Value

/-- A document that was worked on, and whether it changed or what stopped the work. -/
structure Updated where
  document : Value
  result : Except Error Bool

namespace Value

def setAt (path : List String) (v document : Value) : Except Error Value :=
  match document with
  | dict ps => (Entries.setPath v path ps).map dict
  | _ => .error .kind

def popAt (path : List String) (document : Value) : Option (Value × Value) :=
  match document with
  | dict ps => (Entries.popPath path ps).map fun r => (r.1, dict r.2)
  | _ => none

/-- Whether a path already holds a value, the kind included. -/
def holdsAt (path : List String) (v document : Value) : Bool :=
  match getPath path document with
  | some current => strictEqual current v && current.classOf == v.classOf
  | none => false

end Value

def isUpdateOperator (k : Value) : Bool :=
  equal k (str "$set") || equal k (str "$unset") || equal k (str "$rename")

/-- Sets paths one after the other, leaving alone those that hold their value already. -/
def setAll : Entries → Bool → Value → Updated
  | [], changed, d => ⟨d, .ok changed⟩
  | (k, v) :: rest, changed, d =>
    match k with
    | str path =>
      if holdsAt (segments path) v d then setAll rest changed d
      else
        match setAt (segments path) v d with
        | .ok d => setAll rest true d
        | .error e => ⟨d, .error e⟩
    | _ => ⟨d, .error .kind⟩

def unsetAll : List Value → Bool → Value → Updated
  | [], changed, d => ⟨d, .ok changed⟩
  | k :: rest, changed, d =>
    match k with
    | str path =>
      match popAt (segments path) d with
      | some (_, d) => unsetAll rest true d
      | none => unsetAll rest changed d
    | _ => ⟨d, .error .kind⟩

/-- Moves values to new paths; the new path must be text other than the old one. -/
def renameAll : Entries → Bool → Value → Updated
  | [], changed, d => ⟨d, .ok changed⟩
  | (k, target) :: rest, changed, d =>
    match target with
    | str new =>
      match k with
      | str old =>
        if old = new then ⟨d, .error (.malformed (.renameTarget k target))⟩
        else
          match popAt (segments old) d with
          | some (v, d) =>
            match setAt (segments new) v d with
            | .ok d => renameAll rest true d
            | .error e => ⟨d, .error e⟩
          | none => renameAll rest changed d
      | _ => ⟨d, .error .kind⟩
    | _ => ⟨d, .error (.malformed (.renameTarget k target))⟩

/-- The entries under an operator, none if it is absent. -/
def operands (op : String) (update : Entries) : Except Error Entries :=
  match Entries.get? (str op) update with
  | none => .ok []
  | some (dict ps) => .ok ps
  | some _ => .error .kind

/-- The paths to remove: anything that can be iterated names them. -/
def removals (update : Entries) : Except Error (List Value) :=
  match Entries.get? (str "$unset") update with
  | none => .ok []
  | some v =>
    match v.iterate? with
    | some ks => .ok ks
    | none => .error .kind

def Updated.andThen (u : Updated) (f : Bool → Value → Updated) : Updated :=
  match u.result with
  | .ok changed => f changed u.document
  | .error _ => u

def runUpdate (update : Entries) (d : Value) : Updated :=
  let sets : Updated := match operands "$set" update with
    | .ok ps => setAll ps false d
    | .error e => ⟨d, .error e⟩
  let removed := sets.andThen fun changed d =>
    match removals update with
    | .ok ks => unsetAll ks changed d
    | .error e => ⟨d, .error e⟩
  removed.andThen fun changed d =>
    match operands "$rename" update with
    | .ok ps => renameAll ps changed d
    | .error e => ⟨d, .error e⟩

/-- What is wrong with an update before any of it is done. -/
def updateFault? (update : Value) : Option Error :=
  if !update.truthy then some (.malformed .emptyUpdate)
  else
    match update.iterate? with
    | none => some .kind
    | some ks =>
      (ks.find? fun k => !isUpdateOperator k).map fun k => .malformed (.updateOperator k)

/-- Applies an update document to a document. -/
def applyUpdate (document update : Value) : Updated :=
  match updateFault? update with
  | some e => ⟨document, .error e⟩
  | none =>
    match update with
    | dict ps => runUpdate ps document
    | _ => ⟨document, .error .kind⟩

end DocStore
