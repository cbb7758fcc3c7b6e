import DocStore.Text.Integer
import DocStore.Yaml.Lines

/-! Quoted scalars. Between single quotes a quote is written twice; between double quotes a
backslash starts an escape. -/

namespace DocStore

namespace Yaml

/-- The empty lines that follow a break, and what comes after them and the blanks before it. -/
def emptyLines (atStart : Bool) (cs : List Char) : Except Error (List Char × List Char) :=
  if atStart && isBoundary cs then .error .yaml
  else
    match cs with
    | [] => .ok ([], [])
    | c :: rest =>
      if isGap c then emptyLines false rest
      else if isBreak c then (emptyLines true rest).map fun r => (keptBreak c :: r.1, r.2)
      else .ok ([], c :: rest)

/-- White space inside a quoted scalar: blanks stay, but not around a break. -/
def quotedGap (cs : List Char) : Except Error (List Char × List Char) :=
  match cs.dropWhile isGap with
  | [] => .error .yaml
  | c :: rest =>
    if isBreak c then (emptyLines true rest).map fun r => (folded c r.1, r.2)
    else .ok (cs.takeWhile isGap, c :: rest)

def escapes : List (Char × Char) :=
  [('0', '\x00'), ('a', '\x07'), ('b', '\x08'), ('t', '\t'), ('\t', '\t'), ('n', '\n'),
    ('v', '\x0b'), ('f', '\x0c'), ('r', '\r'), ('e', '\x1b'), (' ', ' '), ('"', '"'),
    ('\\', '\\'), ('/', '/'), ('N', '\x85'), ('_', '\xa0'), ('L', '\u2028'), ('P', '\u2029')]

def digitsOfEscape : Char → Nat
  | 'x' => 2
  | 'u' => 4
  | 'U' => 8
  | _ => 0

def numberedChar (digits : List Nat) : Except Error Char :=
  let n := digits.foldl (fun n d => 16 * n + d) 0
  if n.isValidChar then .ok (Char.ofNat n)
  else if n < Nat.pow 2 31 then .error .value
  else .error .overflow

/-- What an escape stands for, without its backslash; an escaped break joins two lines. -/
def escape : List Char → Except Error (List Char × List Char)
  | [] => .error .yaml
  | c :: cs =>
    match escapes.lookup c with
    | some d => .ok ([d], cs)
    | none =>
      let count := digitsOfEscape c
      let digits := (cs.take count).filterMap fun d =>
        if d.toNat < 128 then Integer.digitIn? 16 d else none
      if isBreak c then emptyLines true cs
      else if 0 < count ∧ digits.length = count then
        (numberedChar digits).map fun d => ([d], cs.drop count)
      else .error .yaml

def quotedChars (double : Bool) : Nat → List Char → Except Error (List Char × List Char)
  | 0, _ => .error .yaml
  | _ + 1, [] => .error .yaml
  | n + 1, c :: cs =>
    let joined (chunk : List Char) (rest : List Char) :=
      (quotedChars double n rest).map fun r => (chunk ++ r.1, r.2)
    if isGap c || isBreak c then (quotedGap (c :: cs)).bind fun g => joined g.1 g.2
    else if double then
      if c == '"' then .ok ([], cs)
      else if c == '\\' then (escape cs).bind fun e => joined e.1 e.2
      else joined [c] cs
    else
      match c, cs with
      | '\'', '\'' :: rest => joined ['\''] rest
      | '\'', rest => .ok ([], rest)
      | c, rest => joined [c] rest

def quotedScalar (double : Bool) (cs : List Char) : Except Error (List Char × List Char) :=
  quotedChars double (cs.length + 1) cs

end Yaml

end DocStore
