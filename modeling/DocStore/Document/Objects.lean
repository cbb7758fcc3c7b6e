import DocStore.Document.Path

/-! Documents as objects. A dictionary that stands at two places of a document is one object, and
who changes it at one of them changes it at the other. The containers of a document are the cells of
a heap and stand in each other by their addresses; what is set at a path or removed from one changes
a cell in place. -/

namespace DocStore

open Value

/-- What stands in a container: another container, or a value that is none. -/
inductive Node
  | ref (address : Nat)
  | leaf (v : Value)
  deriving Inhabited

/-- What a container that nothing changes makes of its items. -/
inductive Frame
  | list
  | tuple
  | record (cls : String) (names : List Value)

inductive Cell
  | dict (fields : List (Value × Node))
  | fixed (frame : Frame) (items : List Node)

abbrev Heap := List Cell

/-- A document, or an update: its containers and the address of the outermost dictionary. -/
structure Objects where
  heap : Heap
  root : Nat

def Frame.build : Frame → List Value → Value
  | list, vs => .list vs
  | tuple, vs => .tuple vs
  | record c names, vs => .record c (names.zip vs)

def Node.shift (k : Nat) : Node → Node
  | ref a => ref (k + a)
  | leaf v => leaf v

def Cell.shift (k : Nat) : Cell → Cell
  | dict fs => dict (fs.map fun f => (f.1, f.2.shift k))
  | fixed frame ns => fixed frame (ns.map (Node.shift k))

namespace Heap

/-- The value that a node stands for, if its containers are not nested deeper than a bound. -/
def read (h : Heap) : Nat → Node → Option Value
  | _, .leaf v => if v.isDict then none else some v
  | 0, .ref _ => none
  | depth + 1, .ref a =>
    match h[a]? with
    | some (.dict fs) => (fs.mapM fun f => (h.read depth f.2).map (Prod.mk f.1)).map dict
    | some (.fixed frame ns) => (ns.mapM (h.read depth)).map frame.build
    | none => none

/-- No branch of a value goes through more containers than there are, unless through one twice. -/
def tree (h : Heap) (n : Node) : Option Value := h.read h.length n

def fields? (h : Heap) (a : Nat) : Option (List (Value × Node)) :=
  match h[a]? with
  | some (.dict fs) => some fs
  | _ => none

/-- What a dictionary has under a key. -/
def get? (h : Heap) (a : Nat) (s : String) : Option Node :=
  (h.fields? a).bind (Entries.get? (str s))

def getPath (h : Heap) : List String → Node → Option Node
  | [], n => some n
  | s :: rest, .ref a => (h.get? a s).bind (h.getPath rest)
  | _ :: _, .leaf _ => none

/-- Changes the fields of a dictionary. -/
def change (h : Heap) (a : Nat) (f : List (Value × Node) → List (Value × Node)) : Heap :=
  match h.fields? a with
  | some fs => h.set a (.dict (f fs))
  | none => h

/-- New dictionaries, one in the other along a path, with a node in the innermost one. -/
def nest (n : Node) : List String → Heap → Node × Heap
  | [], h => (n, h)
  | s :: rest, h =>
    let (inner, h) := nest n rest h
    (.ref h.length, h ++ [.dict [(str s, inner)]])

/-- Puts a node into a dictionary, in new ones along the rest of a path. -/
def putNested (n : Node) (s : String) (rest : List String) (a : Nat) (h : Heap) : Heap :=
  (nest n rest h).2.change a (Entries.put (str s) (nest n rest h).1)

/-- Sets a node at a path, making dictionaries where nothing or null stands. -/
def setPath (n : Node) : List String → Nat → Heap → Except Error Heap
  | [], _, h => .ok h
  | [s], a, h => .ok (putNested n s [] a h)
  | s :: rest, a, h =>
    match h.get? a s with
    | none => .ok (putNested n s rest a h)
    | some (.leaf .null) => .ok (putNested n s rest a h)
    | some (.leaf v) => .error (.malformed (.nonDocument s v))
    | some (.ref b) =>
      match h.fields? b with
      | some _ => setPath n rest b h
      | none => .error (.malformed (.nonDocument s ((h.tree (.ref b)).getD handle)))

def popPath : List String → Nat → Heap → Option (Node × Heap)
  | [], _, _ => none
  | [s], a, h => (h.get? a s).map fun n => (n, h.change a (Entries.erase (str s)))
  | s :: rest, a, h =>
    match h.get? a s with
    | some (.ref b) => popPath rest b h
    | _ => none

/-- A heap with the cells of another one, whose addresses are moved past its own. What stood in the
other one is copied, and what was one object there is one object here. -/
def graft (h u : Heap) : Heap := h ++ u.map (Cell.shift h.length)

end Heap

/-! Documents without shared objects -/

mutual

/-- Makes objects of a value, each dictionary a new one, and gives the node that stands for it. -/
def Value.place : Value → Heap → Node × Heap
  | dict ps, h =>
    let (fs, h) := placeEntries ps h
    (.ref h.length, h ++ [.dict fs])
  | list xs, h =>
    let (ns, h) := placeItems xs h
    (.ref h.length, h ++ [.fixed .list ns])
  | tuple xs, h =>
    let (ns, h) := placeItems xs h
    (.ref h.length, h ++ [.fixed .tuple ns])
  | record c ps, h =>
    let (fs, h) := placeEntries ps h
    (.ref h.length, h ++ [.fixed (.record c (fs.map Prod.fst)) (fs.map Prod.snd)])
  | v, h => (.leaf v, h)
termination_by structural x => x

def Value.placeItems : List Value → Heap → List Node × Heap
  | [], h => ([], h)
  | x :: xs, h =>
    let (n, h) := x.place h
    let (ns, h) := placeItems xs h
    (n :: ns, h)
termination_by structural x => x

def Value.placeEntries : Entries → Heap → List (Value × Node) × Heap
  | [], h => ([], h)
  | p :: ps, h =>
    let (f, h) := placeEntry p h
    let (fs, h) := placeEntries ps h
    (f :: fs, h)
termination_by structural x => x

def Value.placeEntry : Value × Value → Heap → (Value × Node) × Heap
  | (k, v), h =>
    let (n, h) := v.place h
    ((k, n), h)
termination_by structural x => x

end

namespace Objects

/-- Entries as objects no two of which are one. -/
def ofEntries (ps : Entries) : Objects :=
  let (fs, h) := Value.placeEntries ps []
  ⟨h ++ [.dict fs], h.length⟩

def tree (o : Objects) : Option Value := o.heap.tree (.ref o.root)

def getAt (path : List String) (o : Objects) : Option Node := o.heap.getPath path (.ref o.root)

end Objects

end DocStore
