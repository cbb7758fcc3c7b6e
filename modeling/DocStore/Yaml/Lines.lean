import DocStore.Error

/-! Characters and line breaks of YAML texts, and how the lines of a scalar are folded into one. -/

namespace DocStore

namespace Yaml

def isBreak (c : Char) : Bool := c == '\n' || c == '\x85' || c == '\u2028' || c == '\u2029'

def isGap (c : Char) : Bool := c == ' ' || c == '\t'

/-- Whether a text ends here, or with white space begins. -/
def endsWord : List Char → Bool
  | [] => true
  | c :: _ => isGap c || isBreak c

/-- Whether a line begins with the mark that ends or starts a document. -/
def isBoundary : List Char → Bool
  | '-' :: '-' :: '-' :: rest => endsWord rest
  | '.' :: '.' :: '.' :: rest => endsWord rest
  | _ => false

def isAllowed (c : Char) : Bool :=
  let n := c.toNat
  n == 9 || n == 10 || n == 13 || (32 ≤ n && n ≤ 126) || n == 0x85 ||
    (0xa0 ≤ n && n != 0xfffe && n != 0xffff)

def unifyBreaks : List Char → List Char
  | [] => []
  | '\r' :: '\n' :: cs => '\n' :: unifyBreaks cs
  | c :: cs => (if c == '\r' then '\n' else c) :: unifyBreaks cs

def keptBreak (c : Char) : Char := if c == '\x85' then '\n' else c

/-- What a break and the empty lines after it leave in a scalar: a lone break is a blank. -/
def folded (first : Char) (more : List Char) : List Char :=
  if keptBreak first != '\n' then keptBreak first :: more
  else if more.isEmpty then [' ']
  else more

/-- Where a text is read: how many characters are behind, and line and column. -/
structure Mark where
  index : Nat
  line : Nat
  column : Nat

namespace Mark

def start : Mark := ⟨0, 0, 0⟩

def past (m : Mark) (c : Char) : Mark :=
  if isBreak c then ⟨m.index + 1, m.line + 1, 0⟩
  else ⟨m.index + 1, m.line, if c == '\ufeff' then m.column else m.column + 1⟩

def through : Nat → List Char → Mark → Mark
  | n + 1, c :: cs, m => through n cs (m.past c)
  | _, _, m => m

end Mark

end Yaml

end DocStore
