import DocStore.Yaml.Lines

/-! Plain scalars: words and what joins them, until something that can only be structure. -/

namespace DocStore

namespace Yaml

def flowMarks : List Char := [',', '[', ']', '\x7b', '\x7d']

def endsKey (inFlow : Bool) : List Char → Bool
  | [] => true
  | c :: _ => isGap c || isBreak c || (inFlow && flowMarks.contains c)

def plainWord (inFlow : Bool) : List Char → List Char × List Char
  | [] => ([], [])
  | c :: cs =>
    if isGap c || isBreak c || (c == ':' && endsKey inFlow cs) ||
        (inFlow && (c == '?' || flowMarks.contains c)) then ([], c :: cs)
    else
      let (word, rest) := plainWord inFlow cs
      (c :: word, rest)

/-- What stands between two words. Nothing joins what does not go on. -/
structure Joint where
  text : List Char
  broken : Bool
  column : Nat
  rest : List Char

/-- The empty lines after a break, none if a document ends there; column and text after them. -/
def plainBreaks (atStart : Bool) (column : Nat) (cs : List Char) :
    Option (List Char) × Nat × List Char :=
  if atStart && isBoundary cs then (none, 0, cs)
  else
    match cs with
    | [] => (some [], column, [])
    | c :: rest =>
      if c == ' ' then plainBreaks false (column + 1) rest
      else if isBreak c then
        let (more, column, rest) := plainBreaks true 0 rest
        (more.map (keptBreak c :: ·), column, rest)
      else (some [], column, c :: rest)

def joint (cs : List Char) : Joint :=
  match cs.dropWhile (· == ' ') with
  | [] => ⟨cs, false, 0, []⟩
  | c :: rest =>
    if isBreak c then
      let (more, column, rest) := plainBreaks true 0 rest
      ⟨(more.map (folded c)).getD [], true, column, rest⟩
    else ⟨cs.takeWhile (· == ' '), false, 0, c :: rest⟩

/-- Whether a scalar goes on after a joint: not if a comment or a shallower line follows. -/
def goesOn (inFlow : Bool) (indent : Nat) (j : Joint) : Bool :=
  !j.text.isEmpty && j.rest.head? != some '#' && (inFlow || !j.broken || indent ≤ j.column) &&
    !(plainWord inFlow j.rest).1.isEmpty

/-- The text of a plain scalar, whether it ends with a line, and what comes after it. -/
def plainChars (inFlow : Bool) (indent : Nat) : Nat → List Char → List Char × Bool × List Char
  | 0, cs => ([], false, cs)
  | n + 1, cs =>
    let (word, rest) := plainWord inFlow cs
    let j := joint rest
    if goesOn inFlow indent j then
      let (more, broken, rest) := plainChars inFlow indent n j.rest
      (word ++ j.text ++ more, broken, rest)
    else (word, j.broken, j.rest)

def plainScalar (inFlow : Bool) (indent : Nat) (cs : List Char) : List Char × Bool × List Char :=
  plainChars inFlow indent (cs.length + 1) cs

end Yaml

end DocStore
