import DocStore.Value.Text

/-! What can go wrong, by cause, and the wording of each cause. -/

namespace DocStore

/-- Why a pattern was refused: a letter that names no option, or a text that cannot be read. -/
inductive PatternFault
  | letter (letter : Value)
  | unreadable

inductive Invalid
  | collectionNameKind (typeName : String)
  | collectionNameEmpty
  | collectionNameLength (length : Nat)
  | collectionNameChars (name : String)
  | fieldNameKind (typeName : String)
  | fieldNameEmpty
  | fieldNameLength (length : Nat)
  | fieldNameNul (name : String)
  | fieldNameGap (name : String)
  | fieldNameDollar (name : String)
  | countKind (name typeName : String)
  | countNegative (name : String) (value : Int)
  | subfilterValue (field typeName : String)
  | inValue (field typeName : String)
  | existsValue (field typeName : String)
  | regexValue (field typeName : String)
  | incompatible (value : Value) (field declared : String)
  | filterOperator (data : Value)
  | filterPattern (data : Value) (reason : PatternFault)
  | filterType (type : Value)
  | notEntity (cls : Value)
  | nameTaken (name : String) (holder : Value)
  | expected (what typeName : String)
  | renameToItself (name : String)
  | className (value : Value)

/-- A query or an update that the store cannot interpret. -/
inductive Malformed
  | nonDocument (part : String) (value : Value)
  | emptyGroup (key : String)
  | topLevelOperator (key : String)
  | queryOperator (key : String)
  | patternOperand (value : Value)
  | arrayOperand (value : Value)
  | loneOptions
  | emptyUpdate
  | updateOperator (key : Value)
  | renameTarget (source : Value) (target : Value)
  | sortDirection (path : String) (direction : Value)
  | mixedProjection (projection : Value)
  | replacedId (field : String) (before after : Value)
  | changedId (field : String)
  | upsert
  | indexDirection (direction : Value)

inductive CursorFault
  | closed
  | started
  | negative (what : String) (value : Value)

inductive PackFault
  | kind (typeName : String)
  | depth

/-- Why an object could not be built: the words of its class, or a value of the wrong kind. -/
inductive BuildFault
  | refused (words : String)
  | kind

/-- Objects and documents that cannot be turned into one another, or into bytes and back. -/
inductive Unserializable
  | pack (fault : PackFault)
  | unpack (reason : String)
  | notSnapshot
  | snapshotVersion (version : Value)
  | notObject (typeName : String)
  | noDiscriminator (field : String)
  | unknownDiscriminator (name : Value)
  | missingField (cls : Value) (key : String)
  | memberValue (enumeration : String) (value : Value)
  | build (cls : Value) (fault : BuildFault)

inductive Error
  | kind
  | value
  | key
  | pattern
  | yaml
  | file
  | overflow
  /-- An exception that asking for the hints of a class ends in. -/
  | unhinted (exception : String)
  | backend (name : String)
  | level (level : Value)
  | letter (letter : Value)
  | invalid (cause : Invalid)
  | unbound
  | unsupported (operator : Value) (filterKind : String)
  | variant (typeName : String)
  | depth (limit : Value)
  | notFound (id : Value) (collection : String)
  | duplicate (field : String) (id : Value) (collection : String)
  | cursor (cause : CursorFault)
  | malformed (cause : Malformed)
  | unserializable (cause : Unserializable)

namespace Error

def ofRegex : Regex.Fault → Error
  | .unreadable => pattern
  | .options => value
  | .tooLarge => overflow

end Error

def Pattern.compiled (options : Regex.Options) (source : Regex.Source) : Except Error Pattern :=
  (compile options source).mapError Error.ofRegex

namespace PatternFault

def message (foreign : String → String) : PatternFault → String
  | letter l => s!"Unknown regex flag: {l.text}"
  | unreadable => foreign "the pattern cannot be read"

end PatternFault

namespace Invalid

def message (foreign : String → String) : Invalid → String
  | collectionNameKind t => s!"Collection name must be a string, got {t}"
  | collectionNameEmpty => "Collection name cannot be empty"
  | collectionNameLength n => s!"Collection name too long: {n} characters (max 120)"
  | collectionNameChars n =>
    s!"Invalid collection name '{n}': must contain only alphanumeric characters, underscores, " ++
      "hyphens, or dots"
  | fieldNameKind t => s!"Field name must be a string, got {t}"
  | fieldNameEmpty => "Field name cannot be empty"
  | fieldNameLength n => s!"Field name too long: {n} characters (max 1024)"
  | fieldNameNul n => s!"Field name contains a NUL character: {quoted n}"
  | fieldNameGap n => s!"Invalid field name '{n}': empty path segment"
  | fieldNameDollar n => s!"Invalid field name '{n}': segments may not start with '$'"
  | countKind n t => s!"{n} must be an integer, got {t}"
  | countNegative n v => s!"{n} must be non-negative, got {v}"
  | subfilterValue f t => s!"subfilter on '{f}' needs a Filter value, got {t}"
  | inValue f t => s!"in on '{f}' needs a sequence of values, got {t}"
  | existsValue f t => s!"exists on '{f}' needs a bool, got {t}"
  | regexValue f t => s!"regex on '{f}' needs a pattern, got {t}"
  | incompatible v f d => s!"Value {v.text} is not compatible with field '{f}' of type {d}"
  | filterOperator d => s!"Invalid filter operator in {d.text}"
  | filterPattern d r => s!"Invalid regex in {d.text}: {r.message foreign}"
  | filterType t => s!"Unknown filter type: {t.display}"
  | notEntity c => s!"Only dataclasses can be registered, got {c.text}"
  | nameTaken n h => s!"Class name '{n}' is already registered to {h.text}"
  | expected w t => s!"Expected a {w}, got {t}"
  | renameToItself n => s!"Cannot rename field '{n}' to itself"
  | className v => s!"Class name must be a non-empty string, got {v.text}"

end Invalid

namespace Malformed

def message : Malformed → String
  | nonDocument p v => s!"Cannot create field '{p}' in non-document value {v.text}"
  | emptyGroup k => s!"{k} needs a non-empty array"
  | topLevelOperator k => s!"Unknown top-level operator: {k}"
  | queryOperator k => s!"Unknown query operator: {k}"
  | patternOperand v => s!"$regex needs a pattern, got {v.text}"
  | arrayOperand v => s!"$in needs an array, got {v.text}"
  | loneOptions => "$options without $regex"
  | emptyUpdate => "Update document is empty"
  | updateOperator k => s!"Unknown update operator: {k.display}"
  | renameTarget s t => s!"Invalid $rename target for '{s.display}': {t.text}"
  | sortDirection p d => s!"Invalid sort direction for '{p}': {d.text}"
  | mixedProjection p => s!"Cannot mix inclusion and exclusion: {p.text}"
  | replacedId f a b => s!"Replacement may not change {f}: {a.text} -> {b.text}"
  | changedId f => s!"Update may not change {f}"
  | upsert => "upsert is not supported by the memory store"
  | indexDirection d => s!"Invalid index direction: {d.text}"

end Malformed

namespace CursorFault

def message : CursorFault → String
  | closed => "Cursor is closed"
  | started => "Cannot modify a cursor after iteration has started"
  | negative w v => s!"{w} must be non-negative, got {v.display}"

end CursorFault

namespace Unserializable

def message (foreign : String → String) : Unserializable → String
  | pack (.kind t) => s!"Cannot serialize document: Cannot serialize value of type {t}"
  | pack .depth => "Cannot serialize document: " ++ foreign "nested too deeply"
  | unpack r => s!"Cannot deserialize document: {foreign r}"
  | notSnapshot => "Not a docquery snapshot"
  | snapshotVersion v => s!"Unsupported snapshot version: {v.display}"
  | notObject t => s!"Cannot encode {t}: not a dataclass instance"
  | noDiscriminator f => s!"Document has no '{f}' discriminator"
  | unknownDiscriminator n => s!"Unknown class discriminator: '{n.display}'"
  | missingField c k => s!"Document for '{c.display}' is missing required field '{k}'"
  | memberValue e v => s!"Invalid {e} value: {v.text}"
  | build c (.refused w) => s!"Cannot build '{c.display}': {w}"
  | build c .kind => s!"Cannot build '{c.display}': " ++ foreign "a value of the wrong kind"

end Unserializable

namespace Error

/-- The wording of an error; `foreign` rewords the reasons that are not of this library. -/
def messageWith (foreign : String → String) : Error → String
  | kind => foreign "a value of the wrong kind"
  | value => foreign "a value that cannot be read"
  | key => foreign "a missing key"
  | pattern => foreign "a pattern that cannot be read"
  | yaml => foreign "a settings text that cannot be read"
  | file => foreign "a missing file"
  | overflow => foreign "a number out of range"
  | unhinted e => foreign s!"hints that end in {e}"
  | backend n => s!"Unknown store backend: {n}"
  | level l => s!"Unknown log level: {l.text}"
  | letter l => s!"Unknown regex flag: {l.text}"
  | invalid c => c.message foreign
  | unbound => "Query is not bound to a collection"
  | unsupported o k => s!"Unsupported operator: {o.worth.display} for {k}"
  | variant t => s!"Unknown filter type: {t}"
  | depth n => s!"Filter nesting exceeds maximum depth of {n.display}"
  | notFound id c => s!"No document with id {id.display} in '{c}'"
  | duplicate f id c => s!"Document with {f} {id.text} already exists in '{c}'"
  | cursor c => c.message
  | malformed c => c.message
  | unserializable c => c.message foreign

def message (e : Error) : String := e.messageWith id

end Error

end DocStore
