import DocStore.Document.Path

/-! Projections name the paths to keep, or the paths to leave out. The identifier is kept with the
paths to keep unless it is left out by name. -/

namespace DocStore

open Value

/-- The paths of a projection, each with whether it is kept. -/
abbrev Choices := List (Value × Bool)

namespace Choices

def chosen (idField : String) (keep : Bool) (cs : Choices) : Bool :=
  cs.any fun c => c.2 == keep && !equal c.1 (str idField)

def keepsId? (idField : String) (cs : Choices) : Option Bool :=
  (cs.find? fun c => equal c.1 (str idField)).map Prod.snd

end Choices

/-- Copies the kept paths that lead to a value through embedded documents. -/
def keepPaths (idField : String) (document : Value) : Choices → Entries → Except Error Entries
  | [], result => .ok result
  | (k, keep) :: rest, result =>
    if !keep || equal k (str idField) then keepPaths idField document rest result
    else
      match k with
      | str path =>
        match getPath (segments path) document with
        | some v =>
          (Entries.setPath v (segments path) result).bind (keepPaths idField document rest)
        | none => keepPaths idField document rest result
      | _ => .error .kind

def dropPaths : Choices → Entries → Except Error Entries
  | [], result => .ok result
  | (k, keep) :: rest, result =>
    if keep then dropPaths rest result
    else
      match k with
      | str path =>
        dropPaths rest (((Entries.popPath (segments path) result).map Prod.snd).getD result)
      | _ => .error .kind

/-- A document that is no dictionary has no fields, so there is nothing to leave out of it. -/
def dropPathsOf (cs : Choices) (document : Value) : Except Error Value :=
  match document with
  | dict ps => (dropPaths cs ps).map dict
  | v => if cs.any fun c => !c.2 && !c.1.isStr then .error .kind else .ok v

/-- Whether the identifier is in a document; asking needs something that can hold it. -/
def idIn (idField : String) (document : Value) : Except Error (Option Value) :=
  match document with
  | dict ps => .ok (Entries.get? (str idField) ps)
  | str s => if (s.splitOn idField).length > 1 then .error .kind else .ok none
  | list xs => if xs.any (equal (str idField)) then .error .kind else .ok none
  | tuple xs => if xs.any (equal (str idField)) then .error .kind else .ok none
  | .set _ xs => if xs.any (equal (str idField)) then .error .kind else .ok none
  | ext _ _ => .ok none
  | _ => .error .kind

def projectChoices (idField : String) (projection document : Value) (cs : Choices) :
    Except Error Value :=
  let included := cs.chosen idField true
  let excluded := cs.chosen idField false
  if included && excluded then .error (.malformed (.mixedProjection projection))
  else if included || (!excluded && (cs.keepsId? idField).getD false) then do
    let start ←
      if (cs.keepsId? idField).getD true then
        (idIn idField document).map fun
          | some v => [(str idField, v)]
          | none => []
      else .ok []
    (keepPaths idField document cs start).map dict
  else dropPathsOf cs document

/-- The part of a document that a projection names; one that counts as false names all. -/
def project (idField : String) (projection document : Value) : Except Error Value :=
  if !projection.truthy then .ok document
  else
    match projection with
    | dict ps => projectChoices idField projection document (ps.map fun p => (p.1, p.2.truthy))
    | _ => .error .kind

end DocStore
