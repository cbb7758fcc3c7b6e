import DocStore.Document.Entries
import DocStore.Yaml.Node
import DocStore.Yaml.Scalar

/-! The values of YAML texts. -/

namespace DocStore

namespace Yaml

open Value

namespace Node

/-- Whether the entries under a key are taken over into the mapping. -/
def isMerge : Node → Bool
  | scalar true text => text == ['<', '<']
  | _ => false

/-- The entries that a value gives to the mapping it stands in; of several dictionaries the first
one wins. -/
def merged : Value → Except Error Entries
  | dict ps => .ok ps
  | list xs => xs.reverse.foldlM
      (fun (qs : Entries) x =>
        match x with
        | dict ps => .ok (Entries.merge qs ps)
        | _ => .error .yaml) []
  | _ => .error .yaml

def entry (key value : Value) : Except Error (Value × Value) :=
  if key.hashable then .ok (key, value) else .error .yaml

mutual

def toValue : Node → Except Error Value
  | scalar plain text => if plain then plainValue text else .ok (str (String.ofList text))
  | sequence xs => do
    let vs ← toValues xs
    .ok (list vs)
  | mapping ps => do
    let (taken, own) ← toEntries ps
    .ok (dict (Entries.merge taken (Entries.ofList own)))
termination_by structural x => x

def toValues : List Node → Except Error (List Value)
  | [] => .ok []
  | x :: xs => do
    let v ← toValue x
    let vs ← toValues xs
    .ok (v :: vs)
termination_by structural x => x

/-- The entries taken over from elsewhere, and those of the mapping itself. -/
def toEntries : List (Node × Node) → Except Error (Entries × Entries)
  | [] => .ok ([], [])
  | p :: ps => do
    let e ← toEntry p
    let (taken, own) ← toEntries ps
    match e with
    | .inl more => .ok (Entries.merge more taken, own)
    | .inr q => .ok (taken, q :: own)
termination_by structural x => x

def toEntry : Node × Node → Except Error (Entries ⊕ (Value × Value))
  | (k, v) =>
    if isMerge k then do
      let w ← toValue v
      (merged w).map Sum.inl
    else
      match k with
      | scalar true ['='] => do
        let w ← toValue v
        .ok (.inr (str "=", w))
      | k => do
        let key ← toValue k
        let w ← toValue v
        (entry key w).map Sum.inr
termination_by structural x => x

end

end Node

def read (text : String) : Except Error (Option Value) := do
  match ← Node.ofTokens (← tokens (unifyBreaks text.toList)) with
  | none => .ok none
  | some node => (node.toValue).map some

end Yaml

end DocStore
