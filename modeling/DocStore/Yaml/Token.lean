import DocStore.Yaml.Plain
import DocStore.Yaml.Quoted

/-! Tokens of a YAML text. Indentation opens and closes blocks. Whether a scalar is a key shows
only at the colon after it; the token of a key is then put before tokens that are there already. -/

namespace DocStore

namespace Yaml

inductive Token
  | documentStart
  | documentEnd
  | sequenceStart
  | mappingStart
  | blockEnd
  | flowSequenceStart
  | flowSequenceEnd
  | flowMappingStart
  | flowMappingEnd
  | entry
  | flowEntry
  | key
  | value
  | scalar (plain : Bool) (text : List Char)
  deriving DecidableEq

/-- A token that may turn out to begin a key, and must if it is required. -/
structure Candidate where
  depth : Nat
  place : Nat
  required : Bool
  mark : Mark

structure Scanner where
  rest : List Char
  mark : Mark
  tokens : List Token
  /-- How many flow collections are open. -/
  depth : Nat
  /-- Columns of the open blocks, the innermost first. -/
  indents : List Nat
  /-- Whether a key may begin here. -/
  keyAllowed : Bool
  candidates : List Candidate

namespace Scanner

def ofText (cs : List Char) : Scanner :=
  match cs with
  | '\ufeff' :: rest => ⟨rest, Mark.start.past '\ufeff', [], 0, [], true, []⟩
  | cs => ⟨cs, .start, [], 0, [], true, []⟩

def inFlow (s : Scanner) : Bool := s.depth != 0

def moveTo (s : Scanner) (rest : List Char) : Scanner :=
  { s with rest := rest, mark := s.mark.through (s.rest.length - rest.length) s.rest }

def advance (n : Nat) (s : Scanner) : Scanner := s.moveTo (s.rest.drop n)

def emit (t : Token) (s : Scanner) : Scanner := { s with tokens := s.tokens ++ [t] }

def allowKey (allowed : Bool) (s : Scanner) : Scanner := { s with keyAllowed := allowed }

/-- The text after blanks, comments and line breaks, and whether a line began on the way. -/
def skipBlank (comment broken : Bool) : List Char → Bool × List Char
  | [] => (broken, [])
  | c :: cs =>
    if isBreak c then skipBlank false true cs
    else if comment || c == ' ' then skipBlank comment broken cs
    else if c == '#' then skipBlank true broken cs
    else (broken, c :: cs)

def toNext (s : Scanner) : Scanner :=
  let (broken, rest) := skipBlank false false s.rest
  (s.moveTo rest).allowKey (s.keyAllowed || (broken && !s.inFlow))

def isStale (s : Scanner) (c : Candidate) : Bool :=
  c.mark.line != s.mark.line || c.mark.index + 1024 < s.mark.index

/-- Drops candidates; a required one must not be dropped. -/
def dropCandidates (s : Scanner) (which : Candidate → Bool) : Except Error Scanner :=
  if s.candidates.any fun c => which c && c.required then .error .yaml
  else .ok { s with candidates := s.candidates.filter fun c => !which c }

def dropHere (s : Scanner) : Except Error Scanner := s.dropCandidates fun c => c.depth == s.depth

/-- Remembers that the next token may begin a key. -/
def addCandidate (s : Scanner) : Except Error Scanner :=
  if s.keyAllowed then do
    let t ← s.dropHere
    let required := !s.inFlow && s.indents.head? == some s.mark.column
    .ok { t with candidates := ⟨s.depth, s.tokens.length, required, s.mark⟩ :: t.candidates }
  else .ok s

/-- Closes the blocks whose columns satisfy a condition, up to the first that does not. -/
def closeBlocks (deeper : Nat → Bool) (s : Scanner) : Scanner :=
  { s with indents := s.indents.dropWhile deeper,
           tokens := s.tokens ++ (s.indents.takeWhile deeper).map fun _ => .blockEnd }

def isDeeper (s : Scanner) (column : Nat) : Bool :=
  match s.indents with
  | [] => true
  | i :: _ => i < column

/-- Opens a block at a column, if it is deeper, with its token at a place. -/
def openBlock (t : Token) (place column : Nat) (s : Scanner) : Scanner :=
  if s.isDeeper column then
    { s with indents := column :: s.indents,
             tokens := s.tokens.take place ++ t :: s.tokens.drop place }
  else s

def boundary (t : Token) (s : Scanner) : Except Error Scanner := do
  let s ← (s.closeBlocks fun _ => true).dropHere
  .ok ((s.allowKey false).advance 3 |>.emit t)

def openFlow (t : Token) (s : Scanner) : Except Error Scanner := do
  let s ← s.addCandidate
  .ok (({ s with depth := s.depth + 1 }.allowKey true).advance 1 |>.emit t)

def closeFlow (t : Token) (s : Scanner) : Except Error Scanner := do
  let s ← s.dropHere
  if s.inFlow then .ok (({ s with depth := s.depth - 1 }.allowKey false).advance 1 |>.emit t)
  else .error .yaml

/-- An entry of a sequence or the mark of a key, either of which may open a block. -/
def marker (block t : Token) (allowed : Bool) (s : Scanner) : Except Error Scanner := do
  let opened ←
    if s.inFlow then .ok s
    else if s.keyAllowed then .ok (s.openBlock block s.tokens.length s.mark.column)
    else .error .yaml
  let s ← opened.dropHere
  .ok ((s.allowKey allowed).advance 1 |>.emit t)

/-- The colon before a value; the candidate of its place becomes the key. -/
def colon (s : Scanner) : Except Error Scanner :=
  match s.candidates.find? fun c => c.depth == s.depth with
  | none => s.marker .mappingStart .value (!s.inFlow)
  | some c =>
    let t := { s with candidates := s.candidates.filter fun d => d.depth != s.depth,
                      tokens := s.tokens.take c.place ++ Token.key :: s.tokens.drop c.place }
    let t := if s.inFlow then t else t.openBlock .mappingStart c.place c.mark.column
    .ok ((t.allowKey false).advance 1 |>.emit .value)

def quoted (double : Bool) (s : Scanner) : Except Error Scanner := do
  let s ← s.addCandidate
  let (text, rest) ← quotedScalar double (s.rest.drop 1)
  .ok ((s.moveTo rest).allowKey false |>.emit (.scalar false text))

def plain (s : Scanner) : Except Error Scanner := do
  let s ← s.addCandidate
  let indent := (s.indents.head?.map (· + 1)).getD 0
  let (text, broken, rest) := plainScalar s.inFlow indent s.rest
  .ok ((s.moveTo rest).allowKey broken |>.emit (.scalar true text))

def reserved : List Char :=
  [',', '[', ']', '\x7b', '\x7d', '#', '&', '*', '!', '|', '>', '\'', '"', '%', '@', '\x60']

def beginsPlain (inFlow : Bool) (c : Char) (cs : List Char) : Bool :=
  if c == '-' then !endsWord cs
  else if c == '?' || c == ':' then !inFlow && !endsWord cs
  else !isGap c && !reserved.contains c

def token (s : Scanner) (c : Char) (cs : List Char) : Except Error Scanner :=
  let marks := s.inFlow || endsWord cs
  if s.mark.column == 0 && isBoundary (c :: cs) then
    s.boundary (if c == '-' then .documentStart else .documentEnd)
  else if c == '[' then s.openFlow .flowSequenceStart
  else if c == '\x7b' then s.openFlow .flowMappingStart
  else if c == ']' then s.closeFlow .flowSequenceEnd
  else if c == '\x7d' then s.closeFlow .flowMappingEnd
  else if c == ',' then (s.dropHere).map fun s => (s.allowKey true).advance 1 |>.emit .flowEntry
  else if c == '-' && endsWord cs then s.marker .sequenceStart .entry true
  else if c == '?' && marks then s.marker .mappingStart .key (!s.inFlow)
  else if c == ':' && marks then s.colon
  else if c == '\'' then s.quoted false
  else if c == '"' then s.quoted true
  else if beginsPlain s.inFlow c cs then s.plain
  else .error .yaml

def run : Nat → Scanner → Except Error (List Token)
  | 0, _ => .error .yaml
  | n + 1, s => do
    let s := s.toNext
    let s ← s.dropCandidates s.isStale
    match s.rest with
    | [] => (s.closeBlocks fun _ => true).dropHere.map Scanner.tokens
    | c :: cs =>
      let s := if s.inFlow then s else s.closeBlocks fun i => s.mark.column < i
      run n (← s.token c cs)

end Scanner

def tokens (cs : List Char) : Except Error (List Token) :=
  if cs.all isAllowed then (Scanner.ofText cs).run (cs.length + 2) else .error .yaml

end Yaml

end DocStore
