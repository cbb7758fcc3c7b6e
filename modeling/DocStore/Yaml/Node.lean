import DocStore.Yaml.Token

/-! Nodes of a YAML document, read from tokens. What is left out is an empty plain scalar. -/

namespace DocStore

namespace Yaml

inductive Node
  | scalar (plain : Bool) (text : List Char)
  | sequence (items : List Node)
  | mapping (entries : List (Node × Node))
  deriving Inhabited

namespace Node

def blank : Node := scalar true []

def comes (which : List Token) : List Token → Bool
  | [] => true
  | t :: _ => which.contains t

/-- The tokens after the comma before an item, which the first item has none of. -/
def separated (first : Bool) (ts : List Token) : Except Error (List Token) :=
  if first then .ok ts
  else
    match ts with
    | .flowEntry :: ts => .ok ts
    | _ => .error .yaml

mutual

/-- A node; in a block it may open a block, and after a key a sequence needs no deeper column. -/
def read (inBlock loose : Bool) : Nat → List Token → Except Error (Node × List Token)
  | n + 1, t :: ts =>
    match t with
    | .scalar plain text => .ok (scalar plain text, ts)
    | .flowSequenceStart => (flowItems true n ts).map fun r => (sequence r.1, r.2)
    | .flowMappingStart => (flowPairs true n ts).map fun r => (mapping r.1, r.2)
    | .sequenceStart =>
      if inBlock then (blockItems n ts).map fun r => (sequence r.1, r.2) else .error .yaml
    | .mappingStart =>
      if inBlock then (blockPairs n ts).map fun r => (mapping r.1, r.2) else .error .yaml
    | .entry =>
      if loose then (looseItems n (t :: ts)).map fun r => (sequence r.1, r.2) else .error .yaml
    | _ => .error .yaml
  | _, _ => .error .yaml

def optional (inBlock loose : Bool) (ends : List Token) :
    Nat → List Token → Except Error (Node × List Token)
  | n + 1, ts => if comes ends ts then .ok (blank, ts) else read inBlock loose n ts
  | 0, _ => .error .yaml

def readValue (inBlock : Bool) (ends : List Token) :
    Nat → List Token → Except Error (Node × List Token)
  | n + 1, .value :: ts => optional inBlock inBlock ends n ts
  | _ + 1, ts => .ok (blank, ts)
  | 0, _ => .error .yaml

def blockItems : Nat → List Token → Except Error (List Node × List Token)
  | _ + 1, .blockEnd :: ts => .ok ([], ts)
  | n + 1, .entry :: ts => do
    let (x, ts) ← optional true false [.entry, .blockEnd] n ts
    let (xs, ts) ← blockItems n ts
    .ok (x :: xs, ts)
  | _, _ => .error .yaml

/-- Entries of a sequence that stands in the column of its key; no token ends it. -/
def looseItems : Nat → List Token → Except Error (List Node × List Token)
  | n + 1, .entry :: ts => do
    let (x, ts) ← optional true false [.entry, .key, .value, .blockEnd] n ts
    let (xs, ts) ← looseItems n ts
    .ok (x :: xs, ts)
  | _ + 1, ts => .ok ([], ts)
  | 0, _ => .error .yaml

def blockPairs : Nat → List Token → Except Error (List (Node × Node) × List Token)
  | _ + 1, .blockEnd :: ts => .ok ([], ts)
  | n + 1, .key :: ts => do
    let (k, ts) ← optional true true [.key, .value, .blockEnd] n ts
    let (v, ts) ← readValue true [.key, .value, .blockEnd] n ts
    let (ps, ts) ← blockPairs n ts
    .ok ((k, v) :: ps, ts)
  | _, _ => .error .yaml

/-- Items of a flow sequence; a key among them makes a mapping of one pair. -/
def flowItems (first : Bool) : Nat → List Token → Except Error (List Node × List Token)
  | _ + 1, .flowSequenceEnd :: ts => .ok ([], ts)
  | n + 1, ts => do
    let ts ← separated first ts
    match ts with
    | .flowSequenceEnd :: ts => .ok ([], ts)
    | .key :: ts => do
      let (k, ts) ← optional false false [.value, .flowEntry, .flowSequenceEnd] n ts
      let (v, ts) ← readValue false [.flowEntry, .flowSequenceEnd] n ts
      let (xs, ts) ← flowItems false n ts
      .ok (mapping [(k, v)] :: xs, ts)
    | ts => do
      let (x, ts) ← read false false n ts
      let (xs, ts) ← flowItems false n ts
      .ok (x :: xs, ts)
  | 0, _ => .error .yaml

/-- Pairs of a flow mapping; a node without the mark of a key has no value. -/
def flowPairs (first : Bool) :
    Nat → List Token → Except Error (List (Node × Node) × List Token)
  | _ + 1, .flowMappingEnd :: ts => .ok ([], ts)
  | n + 1, ts => do
    let ts ← separated first ts
    match ts with
    | .flowMappingEnd :: ts => .ok ([], ts)
    | .key :: ts => do
      let (k, ts) ← optional false false [.value, .flowEntry, .flowMappingEnd] n ts
      let (v, ts) ← readValue false [.flowEntry, .flowMappingEnd] n ts
      let (ps, ts) ← flowPairs false n ts
      .ok ((k, v) :: ps, ts)
    | ts => do
      let (k, ts) ← read false false n ts
      let (ps, ts) ← flowPairs false n ts
      .ok ((k, blank) :: ps, ts)
  | 0, _ => .error .yaml

end

def ofTokens (ts : List Token) : Except Error (Option Node) := do
  let fuel := 4 * ts.length + 8
  let (node, rest) ←
    match ts with
    | [] => .ok (none, [])
    | .documentStart :: ts =>
      (optional true false [.documentStart, .documentEnd] fuel ts).map fun r => (some r.1, r.2)
    | ts => (read true false fuel ts).map fun r => (some r.1, r.2)
  if (rest.dropWhile (· = .documentEnd)).isEmpty then .ok node else .error .yaml

end Node

end Yaml

end DocStore
