import DocStore.Document.Objects
import DocStore.Query.Projection
import DocStore.Query.Update

/-! Updates and projections of documents as objects. An update changes the dictionaries of a
document in place, and a projection that leaves paths out does so in a copy, in which what was one
object is one object still. -/

namespace DocStore

open Value

/-- Objects that were worked on, and whether they changed or what stopped the work. -/
structure Altered where
  document : Objects
  result : Except Error Bool

def Altered.andThen (r : Altered) (f : Bool → Objects → Altered) : Altered :=
  match r.result with
  | .ok changed => f changed r.document
  | .error _ => r

/-- What iteration over a node gives, if it can be iterated. -/
def Heap.iterate? (h : Heap) : Node → Option (List Value)
  | .leaf v => v.iterate?
  | .ref a =>
    match h[a]? with
    | some (.dict fs) => some (fs.map Prod.fst)
    | some (.fixed (.record _ _) _) => none
    | some (.fixed _ ns) => some (ns.map fun n => (h.tree n).getD handle)
    | none => none

namespace Objects

def setAt (path : List String) (n : Node) (o : Objects) : Except Error Objects :=
  (o.heap.setPath n path o.root).map fun h => ⟨h, o.root⟩

def popAt (path : List String) (o : Objects) : Option (Node × Objects) :=
  (o.heap.popPath path o.root).map fun r => (r.1, ⟨r.2, o.root⟩)

/-- Sets a copy of a node of another heap at a path. -/
def copyAt (path : List String) (u : Heap) (n : Node) (o : Objects) : Except Error Objects :=
  setAt path (n.shift o.heap.length) ⟨o.heap.graft u, o.root⟩

/-- Whether a path already holds what a node of another heap stands for, the kind included. -/
def holdsAt (path : List String) (u : Heap) (n : Node) (o : Objects) : Bool :=
  match (o.getAt path).bind o.heap.tree, u.tree n with
  | some current, some v => strictEqual current v && current.classOf == v.classOf
  | _, _ => false

def setAll (u : Heap) : List (Value × Node) → Bool → Objects → Altered
  | [], changed, o => ⟨o, .ok changed⟩
  | (k, n) :: rest, changed, o =>
    match k with
    | str path =>
      if holdsAt (segments path) u n o then setAll u rest changed o
      else
        match copyAt (segments path) u n o with
        | .ok o => setAll u rest true o
        | .error e => ⟨o, .error e⟩
    | _ => ⟨o, .error .kind⟩

def unsetAll : List Value → Bool → Objects → Altered
  | [], changed, o => ⟨o, .ok changed⟩
  | k :: rest, changed, o =>
    match k with
    | str path =>
      match popAt (segments path) o with
      | some (_, o) => unsetAll rest true o
      | none => unsetAll rest changed o
    | _ => ⟨o, .error .kind⟩

def renameAll (u : Heap) : List (Value × Node) → Bool → Objects → Altered
  | [], changed, o => ⟨o, .ok changed⟩
  | (k, target) :: rest, changed, o =>
    match target with
    | .leaf (str new) =>
      match k with
      | str old =>
        if old = new then ⟨o, .error (.malformed (.renameTarget k (str new)))⟩
        else
          match popAt (segments old) o with
          | some (n, o) =>
            match setAt (segments new) n o with
            | .ok o => renameAll u rest true o
            | .error e => ⟨o, .error e⟩
          | none => renameAll u rest changed o
      | _ => ⟨o, .error .kind⟩
    | other => ⟨o, .error (.malformed (.renameTarget k ((u.tree other).getD handle)))⟩

/-- The fields of the dictionary that an update starts from. -/
def fields (u : Objects) : List (Value × Node) := (u.heap.fields? u.root).getD []

/-- The fields under an operator, none if it is absent. -/
def operands (op : String) (u : Objects) : Except Error (List (Value × Node)) :=
  match Entries.get? (str op) u.fields with
  | none => .ok []
  | some (.ref a) =>
    match u.heap.fields? a with
    | some fs => .ok fs
    | none => .error .kind
  | some (.leaf _) => .error .kind

def removals (u : Objects) : Except Error (List Value) :=
  match Entries.get? (str "$unset") u.fields with
  | none => .ok []
  | some n =>
    match u.heap.iterate? n with
    | some ks => .ok ks
    | none => .error .kind

def runUpdate (u o : Objects) : Altered :=
  let sets : Altered := match u.operands "$set" with
    | .ok fs => setAll u.heap fs false o
    | .error e => ⟨o, .error e⟩
  let removed := sets.andThen fun changed o =>
    match u.removals with
    | .ok ks => unsetAll ks changed o
    | .error e => ⟨o, .error e⟩
  removed.andThen fun changed o =>
    match u.operands "$rename" with
    | .ok fs => renameAll u.heap fs changed o
    | .error e => ⟨o, .error e⟩

/-- Applies an update to a document in place. Whether it names operators, and no others, is seen
from its keys. -/
def applyUpdate (o u : Objects) : Altered :=
  match updateFault? (dict (u.fields.map fun f => (f.1, null))) with
  | some e => ⟨o, .error e⟩
  | none => runUpdate u o

/-! Projections -/

def keepPaths (idField : String) (o : Objects) : Choices → Objects → Except Error Objects
  | [], result => .ok result
  | (k, keep) :: rest, result =>
    if !keep || equal k (str idField) then keepPaths idField o rest result
    else
      match k with
      | str path =>
        match o.getAt (segments path) with
        | some n => (copyAt (segments path) o.heap n result).bind (keepPaths idField o rest)
        | none => keepPaths idField o rest result
      | _ => .error .kind

def dropPaths : Choices → Objects → Except Error Objects
  | [], result => .ok result
  | (k, keep) :: rest, result =>
    if keep then dropPaths rest result
    else
      match k with
      | str path => dropPaths rest (((popAt (segments path) result).map Prod.snd).getD result)
      | _ => .error .kind

/-- A new document, with a copy of the identifier if it is wanted and there is one. -/
def withId (idField : String) (wanted : Bool) (o : Objects) : Except Error Objects :=
  match wanted, o.getAt [idField] with
  | true, some n => copyAt [idField] o.heap n ⟨[.dict []], 0⟩
  | _, _ => .ok ⟨[.dict []], 0⟩

def projectChoices (idField : String) (projection : Value) (cs : Choices) (o : Objects) :
    Except Error Objects :=
  let included := cs.chosen idField true
  let excluded := cs.chosen idField false
  if included && excluded then .error (.malformed (.mixedProjection projection))
  else if included || (!excluded && (cs.keepsId? idField).getD false) then
    (withId idField ((cs.keepsId? idField).getD true) o).bind (keepPaths idField o cs)
  else dropPaths cs o

/-- The part of a document that a projection names, in objects of its own. -/
def project (idField : String) (projection : Value) (o : Objects) : Except Error Objects :=
  if !projection.truthy then .ok o
  else
    match projection with
    | dict ps => projectChoices idField projection (ps.map fun p => (p.1, p.2.truthy)) o
    | _ => .error .kind

end Objects

end DocStore
