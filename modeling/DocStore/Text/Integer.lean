import DocStore.Text.Digit
import DocStore.Text.Blank

/-! Integers as people write them: blanks around, a sign, single underscores between digits, and
digits of any script. -/

namespace DocStore

namespace Integer

def digitIn? (base : Nat) (c : Char) : Option Nat :=
  let letter (first : Char) : Option Nat :=
    if first ≤ c ∧ c.toNat < first.toNat + 6 then some (c.toNat - first.toNat + 10) else none
  let value := decimalValue? c <|> letter 'a' <|> letter 'A'
  value.filter (· < base)

/-- Digits with single underscores between them; `afterDigit` says whether one may come next. -/
def readDigits (base : Nat) : Nat → Bool → List Char → Option Nat
  | acc, afterDigit, [] => if afterDigit then some acc else none
  | acc, afterDigit, c :: cs =>
    if c = '_' then if afterDigit then readDigits base acc false cs else none
    else
      match digitIn? base c with
      | some d => readDigits base (base * acc + d) true cs
      | none => none

/-- In base sixteen the digits may follow `0x`, and an underscore may follow that. -/
def readBody (base : Nat) : List Char → Option Nat
  | '0' :: x :: cs =>
    if base = 16 ∧ (x = 'x' ∨ x = 'X') then
      match cs with
      | '_' :: rest => readDigits base 0 false rest
      | rest => readDigits base 0 false rest
    else readDigits base 0 false ('0' :: x :: cs)
  | cs => readDigits base 0 false cs

def read? (base : Nat) (cs : List Char) : Option Int :=
  match trimBlank cs with
  | '-' :: rest => (readBody base rest).map fun n => -(n : Int)
  | '+' :: rest => (readBody base rest).map Int.ofNat
  | rest => (readBody base rest).map Int.ofNat

/-- The longest decimal text that is read, in digits, unless the limit is set otherwise. -/
def maxDigits : Nat := 4300

def ofText? (s : String) : Option Int :=
  if maxDigits < (s.toList.filter fun c => c != '_' && !isBlank c).length then none
  else read? 10 s.toList

end Integer

end DocStore
