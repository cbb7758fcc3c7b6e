import DocStore.Document.Entries

/-! Dotted paths. Reading a path reaches into embedded documents and across arrays of them; setting
and removing go through embedded documents only. -/

namespace DocStore

def splitDots : List Char → List (List Char)
  | [] => [[]]
  | c :: cs =>
    if c = '.' then [] :: splitDots cs
    else
      match splitDots cs with
      | [] => [[c]]
      | part :: parts => (c :: part) :: parts

def segments (path : String) : List String := (splitDots path.toList).map String.ofList

def isIndex (s : String) : Bool := s != "" && s.toList.all isDigit

namespace Value

mutual

/-- All values that a list of segments reaches. In an array a number picks one item; any other
segment is looked up in every embedded document of it. -/
def lookup (segs : List String) : Value → Except Error (List Value)
  | dict ps =>
    match segs with
    | [] => .ok [dict ps]
    | s :: rest => lookupEntry s rest ps
  | list xs =>
    match segs with
    | [] => .ok [list xs]
    | s :: rest =>
      if isIndex s then
        match Integer.ofText? s with
        | some i => lookupItem i.toNat rest xs
        | none => .error .value
      else lookupItems (s :: rest) xs
  | v => .ok (if segs.isEmpty then [v] else [])
termination_by structural x => x

def lookupEntry (s : String) (rest : List String) : Entries → Except Error (List Value)
  | [] => .ok []
  | p :: ps => if equal p.1 (str s) then lookupValue rest p else lookupEntry s rest ps
termination_by structural x => x

def lookupValue (rest : List String) : Value × Value → Except Error (List Value)
  | (_, v) => lookup rest v
termination_by structural x => x

def lookupItem (i : Nat) (rest : List String) : List Value → Except Error (List Value)
  | [] => .ok []
  | x :: xs => if i = 0 then lookup rest x else lookupItem (i - 1) rest xs
termination_by structural x => x

def lookupItems (segs : List String) : List Value → Except Error (List Value)
  | [] => .ok []
  | x :: xs =>
    if x.isDict then
      match lookup segs x with
      | .ok found =>
        match lookupItems segs xs with
        | .ok more => .ok (found ++ more)
        | .error e => .error e
      | .error e => .error e
    else lookupItems segs xs
termination_by structural x => x

end

def lookupPath (v : Value) (path : String) : Except Error (List Value) := lookup (segments path) v

def getPath : List String → Value → Option Value
  | [], v => some v
  | s :: rest, dict ps => (Entries.get? (str s) ps).bind (getPath rest)
  | _ :: _, _ => none

end Value

namespace Entries

/-- Sets the value at a path, making embedded documents where nothing or null stands. -/
def setPath (v : Value) : List String → Entries → Except Error Entries
  | [], ps => .ok ps
  | [s], ps => .ok (put (.str s) v ps)
  | s :: rest, ps =>
    match get? (.str s) ps with
    | some (.dict child) => (setPath v rest child).map fun c => put (.str s) (.dict c) ps
    | none => (setPath v rest []).map fun c => put (.str s) (.dict c) ps
    | some .null => (setPath v rest []).map fun c => put (.str s) (.dict c) ps
    | some other => .error (.malformed (.nonDocument s other))

def popPath : List String → Entries → Option (Value × Entries)
  | [], _ => none
  | [s], ps => (get? (.str s) ps).map fun v => (v, erase (.str s) ps)
  | s :: rest, ps =>
    match get? (.str s) ps with
    | some (.dict child) =>
      (popPath rest child).map fun r => (r.1, put (.str s) (.dict r.2) ps)
    | _ => none

end Entries

end DocStore
