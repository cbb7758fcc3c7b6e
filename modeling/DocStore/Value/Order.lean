import DocStore.Value.Equal

/-! Order of values. Most pairs of kinds have none; sets are ordered by inclusion, and sequences by
their first items that differ. -/

namespace DocStore

inductive Relation
  | lt
  | le
  | gt
  | ge
  deriving DecidableEq

namespace Relation

def holds : Relation → Ordering → Bool
  | lt, o => o == .lt
  | le, o => o != .gt
  | gt, o => o == .gt
  | ge, o => o != .lt

end Relation

def compareBytes : List UInt8 → List UInt8 → Ordering
  | [], [] => .eq
  | [], _ :: _ => .lt
  | _ :: _, [] => .gt
  | a :: as, b :: bs => (Ord.compare a.toNat b.toNat).then (compareBytes as bs)

def compareChars : List Char → List Char → Ordering
  | [], [] => .eq
  | [], _ :: _ => .lt
  | _ :: _, [] => .gt
  | a :: as, b :: bs => (Ord.compare a.toNat b.toNat).then (compareChars as bs)

namespace Value

/-- Inclusion of one set in another; strict inclusion for the strict relations. -/
def setHolds (r : Relation) (xs ys : List Value) : Bool :=
  match r with
  | .le => xs.length ≤ ys.length && withinSet false xs ys
  | .lt => xs.length < ys.length && withinSet false xs ys
  | .ge => ys.length ≤ xs.length && withinSet false ys xs
  | .gt => ys.length < xs.length && withinSet false ys xs

/-- Numbers in a relation; NaN is in none. -/
def numberHolds (r : Relation) (a b : Value) : Option Bool :=
  match a.number?, b.number? with
  | some x, some y => some ((x.compare y).any r.holds)
  | _, _ => none

mutual

/-- Whether two values are in a relation; none if there is no order between their kinds. -/
def related (r : Relation) : Value → Value → Option Bool
  | str s, b =>
    match b with
    | str t => some (r.holds (compareChars s.toList t.toList))
    | _ => none
  | list xs, b => match b with | list ys => relatedLists r xs ys | _ => none
  | tuple xs, b => match b with
    | tuple ys => relatedLists r xs ys
    | ext code data => relatedLists r xs [int code, bytes data]
    | _ => none
  | ext code data, b =>
    match b with
    | ext code' data' =>
      some (r.holds ((Ord.compare code code').then (compareBytes data data')))
    | tuple [] => some (r.holds .gt)
    | tuple (c :: rest) =>
      if numberEqual false (int code) c then
        match rest with
        | [] => some (r.holds .gt)
        | bytes d :: more =>
          some (r.holds ((compareBytes data d).then (if more.isEmpty then .eq else .lt)))
        | _ => none
      else numberHolds r (int code) c
    | _ => none
  | bytes x, b => match b with | bytes y => some (r.holds (compareBytes x y)) | _ => none
  | uuid x, b => match b with | uuid y => some (r.holds (Ord.compare x.toNat y.toNat)) | _ => none
  | datetime x, b => match b with | datetime y => (x.compare y).map r.holds | _ => none
  | date x, b =>
    match b with
    | date y => some (r.holds (Ord.compare x.ordinal y.ordinal))
    | _ => none
  | set _ xs, b => match b with | set _ ys => some (setHolds r xs ys) | _ => none
  | bool x, b => numberHolds r (bool x) b
  | int x, b => numberHolds r (int x) b
  | float x, b => numberHolds r (float x) b
  | _, _ => none
termination_by structural x => x

def relatedLists (r : Relation) : List Value → List Value → Option Bool
  | [], ys => some (r.holds (if ys.isEmpty then .eq else .lt))
  | x :: xs, ys =>
    match ys with
    | [] => some (r.holds .gt)
    | y :: ys => if equal x y then relatedLists r xs ys else related r x y
termination_by structural x => x

end

end Value

end DocStore
