import DocStore.Filter.Compile
import DocStore.Query.Description

/-! Plans: what a description asks of a store. A plan is made of plain values, so that one can also
be written by hand. -/

namespace DocStore

open Value

/-- A query document, a projection or null, sort keys, and counts, of which a zero sets no limit. -/
structure Plan where
  query : Value
  projection : Value
  sort : Value
  skip : Value
  limit : Value

namespace Plan

def everything : Plan := ⟨dict [], null, list [], int 0, int 0⟩

/-- The fields to read, with the name of the class, which picks how to read them. -/
def projectionOf (s : Schema) (fields : List Field) : Value :=
  if fields.isEmpty then null
  else
    dict (Entries.put (str s.classField) (bool true)
      (Entries.ofList (fields.map fun f => (str f.name, bool true))))

def sortOf (keys : List (Value × Int)) : Value := list (keys.map fun k => tuple [k.1, int k.2])

def ofDescription (cat : Catalog) (s : Schema) (depth : Value) (d : Description) : Naming Plan := do
  let query ← Filter.compileAll cat s depth [] d.filters
  let keys ← liftExcept (d.sorts.mapM SortSpec.key)
  pure ⟨dict query, projectionOf s d.fields, sortOf keys, int d.skipped, int d.limited⟩

/-- The texts to log about a plan. -/
def report (p : Plan) : List String :=
  s!"Executing Query (skip: {p.skip.display}, limit: {p.limit.display}): {p.query.render}" ::
    if p.sort.truthy then [s!"Sorting: {p.sort.display}"] else []

def orElse (v : Value) (other : String) : String := if v.truthy then v.display else other

def explain (p : Plan) : String :=
  String.intercalate "\n"
    ["Executable Query", String.ofList (List.replicate 40 '='), s!"Query: {p.query.render}",
      "Projection: " ++ orElse p.projection "all fields", "Sort: " ++ orElse p.sort "natural order",
      s!"Skip: {p.skip.display}", "Limit: " ++ orElse p.limit "unlimited"]

/-- The items of each sort key. -/
def sortLists : List Value → Except Error (List Value)
  | [] => .ok []
  | v :: vs =>
    match v.iterate?, sortLists vs with
    | some xs, .ok rest => .ok (list xs :: rest)
    | _, _ => .error .kind

def toDict (p : Plan) : Except Error Value :=
  match p.sort.iterate? with
  | none => .error .kind
  | some keys =>
    (sortLists keys).map fun keys =>
      dict [(str "native_query", p.query), (str "projection", p.projection),
        (str "sort", list keys), (str "skip", p.skip), (str "limit", p.limit)]

end Plan

end DocStore
