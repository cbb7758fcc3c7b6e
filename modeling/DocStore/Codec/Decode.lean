import DocStore.Codec.Registry

/-! Reading documents as objects. The class is the one the document names; hints turn stored values
back into enumeration members, identifiers, tuples and sets. -/

namespace DocStore

namespace Hint

def item : Hint → Hint
  | list h => h
  | tuple (h :: _) => h
  | set _ h => h
  | dict h _ => h
  | optional h => h
  | _ => any

end Hint

namespace Codec

open Value

/-- Distinct values in order of their first appearance; all must be possible keys. -/
def distinct (cat : Catalog) : List Value → List Value → Except Error (List Value)
  | kept, [] => .ok kept.reverse
  | kept, x :: xs =>
    if !x.hashableIn cat.isFrozen then .error .kind
    else if kept.any (same x) then distinct cat kept xs
    else distinct cat (x :: kept) xs

def collect (cat : Catalog) (h : Hint) (items : List Value) : Except Error Value :=
  match h with
  | .tuple _ => .ok (tuple items)
  | .set frozen _ => (distinct cat [] items).map (Value.set frozen)
  | _ => .ok (list items)

/-- A value that is neither document nor array, under its hint. -/
def scalar (cat : Catalog) (h : Hint) (v : Value) : Except Error Value :=
  match h with
  | .cls (.enumeration e) =>
    if v.isNull || v.classOf == .enumeration e then .ok v
    else if cat.isMemberless e then .error .kind
    else
      match (cat.enumeration? e).bind fun e => e.ofValue? v with
      | some m => .ok m
      | none => .error (.unserializable (.memberValue e v))
  | .cls (.kind .uuid) =>
    match v with
    | str s =>
      match Uuid.ofText? s with
      | some u => .ok (uuid u)
      | none => .error .value
    | v => .ok v
  | _ => .ok v

def refused (name : Value) : Refusal → Error
  | .kind (some words) => .unserializable (.build name (.refused words))
  | .kind none => .unserializable (.build name .kind)
  | .value (some words) => .unserializable (.build name (.refused words))
  | .value none => .unserializable (.build name .kind)
  | .key => .key
  | .overflow => .overflow

/-- The fields of a class as a document gives them; a partial document gives null for what it must
have and lacks. -/
def given (s : Schema) (c : ClassSpec) (name : Value) (partly : Bool)
    (fetch : String → Hint → Fresh (Option Value)) :
    List FieldSpec → Fresh (List (String × Value))
  | [] => pure []
  | f :: fs =>
    if !f.given then given s c name partly fetch fs
    else do
      let key := if c.identifiable && f.name == "id" then s.idField else f.name
      match ← fetch key (c.hintOf f) with
      | some v => do
        let rest ← given s c name partly fetch fs
        pure ((f.name, v) :: rest)
      | none =>
        match f.default with
        | .required =>
          if partly then do
            let rest ← given s c name partly fetch fs
            pure ((f.name, null) :: rest)
          else throw (.unserializable (.missingField name key))
        | _ => given s c name partly fetch fs

def build (cat : Catalog) (s : Schema) (r : Registry) (name : Value) (partly : Bool)
    (fetch : String → Hint → Fresh (Option Value)) : Fresh Value :=
  if name.isNull then throw (.unserializable (.noDiscriminator s.classField))
  else
    match r.resolve name with
    | .error e => throw e
    | .ok entity =>
      match cat.class? entity with
      | none => throw .kind
      | some c =>
        match c.uncaught? with
        | some exception => throw (.unhinted exception)
        | none => do
          let fields ← given s c name partly fetch c.fields
          match ← c.construct fields with
          | .ok v => pure v
          | .error why => throw (refused name why)

mutual

def decode (cat : Catalog) (s : Schema) (r : Registry) : Value → Hint → Fresh Value
  | dict ps, _ =>
    match Entries.get? (str s.classField) ps with
    | some name => build cat s r name false (fun key h => decodeField cat s r key h ps)
    | none => do
      let qs ← decodeEntries cat s r ps
      pure (dict qs)
  | list xs, h => do
    let ys ← decodeItems cat s r h.item xs
    match collect cat h ys with
    | .ok v => pure v
    | .error e => throw e
  | v, h =>
    match scalar cat h v with
    | .ok v => pure v
    | .error e => throw e
termination_by structural x => x

def decodeItems (cat : Catalog) (s : Schema) (r : Registry) (h : Hint) :
    List Value → Fresh (List Value)
  | [] => pure []
  | x :: xs => do
    let y ← decode cat s r x h
    let ys ← decodeItems cat s r h xs
    pure (y :: ys)
termination_by structural x => x

def decodeEntries (cat : Catalog) (s : Schema) (r : Registry) : Entries → Fresh Entries
  | [] => pure []
  | p :: ps => do
    let v ← decodeEntry cat s r .any p
    let qs ← decodeEntries cat s r ps
    pure ((p.1, v) :: qs)
termination_by structural x => x

def decodeEntry (cat : Catalog) (s : Schema) (r : Registry) (h : Hint) : Value × Value → Fresh Value
  | (_, v) => decode cat s r v h
termination_by structural x => x

/-- The value under a key, decoded; none if the key is absent. -/
def decodeField (cat : Catalog) (s : Schema) (r : Registry) (key : String) (h : Hint) :
    Entries → Fresh (Option Value)
  | [] => pure none
  | p :: ps =>
    if equal p.1 (str key) then some <$> decodeEntry cat s r h p
    else decodeField cat s r key h ps
termination_by structural x => x

end

/-- The object of a document; `partly` says that fields may have been left out of it. -/
def fromDocument (cat : Catalog) (s : Schema) (r : Registry) (partly : Bool) (document : Value) :
    Fresh Value :=
  match document with
  | dict ps =>
    build cat s r ((Entries.get? (str s.classField) ps).getD null) partly
      (fun key h => decodeField cat s r key h ps)
  | _ => throw .kind

end Codec

end DocStore
