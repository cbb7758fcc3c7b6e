import DocStore.Query.Match

/-! Sorting documents by paths. Values of different kinds are ordered by kind; the sort is stable
in both directions, and the first key decides first. -/

namespace DocStore

open Value

/-- Whether any two items have no order between them. -/
def someUnrelated (xs : List Value) : Bool :=
  match xs with
  | [] => false
  | x :: rest => rest.any (fun y => (related .lt x y).isNone) || someUnrelated rest

/-- Sorts by a key; none if two keys have no order between them. -/
def sortOn? {α : Type} (key : α → Value) (descending : Bool) (xs : List α) : Option (List α) :=
  if someUnrelated (xs.map key) then none
  else
    some (xs.mergeSort fun x y =>
      if descending then related .lt (key x) (key y) != some true
      else related .lt (key y) (key x) != some true)

namespace Value

/-- The entries of a dictionary in the order of their keys. -/
def sortedEntries (ps : Entries) : Except Error Entries :=
  match sortOn? Prod.fst false ps with
  | some qs => .ok qs
  | none => .error .kind

mutual

/-- The key a value is sorted by: its rank, and what decides within the rank. -/
def sortKey : Value → Except Error Value
  | null => .ok (tuple [int 0, int 0])
  | dict ps =>
    (sortedEntries ps).map fun qs =>
      tuple [int 3, str (text (list (qs.map fun q => tuple [q.1, q.2])))]
  | list xs => (sortKeys xs).map fun ks => tuple [int 4, tuple ks]
  | uuid u => .ok (tuple [int 5, int u.toNat])
  | date d => .ok (tuple [int 8, datetime (DateTime.midnight d)])
  | v => .ok (if v.rank = 9 then tuple [int 9, str v.text] else tuple [int v.rank, v])
termination_by structural x => x

def sortKeys : List Value → Except Error (List Value)
  | [] => .ok []
  | x :: xs =>
    match sortKey x with
    | .error e => .error e
    | .ok k => (sortKeys xs).map (k :: ·)
termination_by structural x => x

end

/-- Takes a value apart into two. -/
def pair (v : Value) : Except Error (Value × Value) :=
  match v.iterate? with
  | none => .error .kind
  | some [a, b] => .ok (a, b)
  | some _ => .error .value

end Value

/-- The key of a document: that of the first value found at the path, or of null. -/
def documentKey (path document : Value) : Except Error Value :=
  match path with
  | str p =>
    match lookupPath document p with
    | .ok found => (found.head?.getD null).sortKey
    | .error e => .error e
  | _ => .error .kind

def documentKeys (path : Value) : List Value → Except Error (List (Value × Value))
  | [] => .ok []
  | d :: ds =>
    match documentKey path d with
    | .error e => .error e
    | .ok k => (documentKeys path ds).map ((k, d) :: ·)

/-- Sorts by one key; its direction is 1 or -1. -/
def sortByKey (documents : List Value) (key : Value) : Except Error (List Value) := do
  let (path, direction) ← key.pair
  if equal direction (int 1) || equal direction (int (-1)) then
    let keyed ← documentKeys path documents
    match sortOn? Prod.fst (equal direction (int (-1))) keyed with
    | some sorted => .ok (sorted.map Prod.snd)
    | none => .error .kind
  else .error (.malformed (.sortDirection path.display direction))

/-- Sorts by several keys, the first being the most significant. -/
def sortDocuments (documents : List Value) (keys : List Value) : Except Error (List Value) :=
  keys.reverse.foldlM sortByKey documents

end DocStore
