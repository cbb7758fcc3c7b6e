import DocStore.Number.Binary64

/-! The text of a double: the fewest decimal digits that read back to it, positional between
`10 ^ -4` and `10 ^ 16` and with a signed exponent of two digits elsewhere. -/

namespace DocStore

namespace Binary64

/-- The greatest `k` up to `fuel` with `10 ^ k * den ≤ num`. -/
def log10Floor (num den : Nat) : Nat → Nat
  | 0 => 0
  | fuel + 1 =>
    if Nat.pow 10 (fuel + 1) * den ≤ num then fuel + 1 else log10Floor num den fuel

/-- The quotient `num / den` of a finite double's magnitude. -/
def quotient (x : Binary64) : Nat × Nat :=
  if 1074 ≤ x.binade then (x.significand * Nat.pow 2 (x.binade - 1074), 1)
  else (x.significand, Nat.pow 2 (1074 - x.binade))

/-- The decimal exponent `e` of a positive quotient: `10 ^ e ≤ num / den < 10 ^ (e + 1)`. -/
def decimalExponent (num den : Nat) : Int :=
  if den ≤ num then log10Floor num den ((num / den).log2)
  else
    let guess := log10Floor den num ((den / num).log2 + 1)
    if Nat.pow 10 guess * num = den then -(guess : Int) else -(guess : Int) - 1

/-- The nearer of the two grid points around `num / den` that read back, if one does. -/
def readBack? (x : Binary64) (num den : Nat) (exponent : Int) : Option Nat :=
  let top := if 0 ≤ exponent then num else num * Nat.pow 10 (-exponent).toNat
  let unit := if 0 ≤ exponent then den * Nat.pow 10 exponent.toNat else den
  let below := top / unit
  let reads := fun d => (ofDecimal x.negative d exponent).bits == x.bits
  let twice := 2 * (top % unit)
  let nearBelow := twice < unit || (twice == unit && below % 2 == 0)
  let first := if nearBelow then below else below + 1
  let second := if nearBelow then below + 1 else below
  if reads first then some first else if reads second then some second else none

/-- Digits and exponent of the shortest decimal, tried from one digit up to seventeen. -/
def shortestFrom (x : Binary64) (num den : Nat) (top : Int) : Nat → Nat → Nat × Int
  | 0, _ => (num * Nat.pow 10 1100 / den, -1100)
  | fuel + 1, count =>
    let exponent := top - (count : Int) + 1
    match readBack? x num den exponent with
    | some digits => (digits, exponent)
    | none => shortestFrom x num den top fuel (count + 1)

def shortest (x : Binary64) : Nat × Int :=
  let (num, den) := x.quotient
  shortestFrom x num den (decimalExponent num den) 17 1

/-- Trailing zeros go into the exponent. -/
def stripZeros : Nat → Nat → Int → Nat × Int
  | 0, digits, exponent => (digits, exponent)
  | fuel + 1, digits, exponent =>
    if digits ≠ 0 ∧ digits % 10 = 0 then stripZeros fuel (digits / 10) (exponent + 1)
    else (digits, exponent)

def digitChars (n : Nat) : List Char := Nat.toDigits 10 n

def zeros (n : Nat) : List Char := List.replicate n '0'

/-- The exponent part: a sign and at least two digits. -/
def exponentChars (e : Int) : List Char :=
  let digits := digitChars e.natAbs
  'e' :: (if e < 0 then '-' else '+') :: (zeros (2 - digits.length) ++ digits)

/-- Digits laid out around the point, which stands after the first `point` of them. -/
def layout (digits : List Char) (point : Int) : List Char :=
  if -4 < point ∧ point ≤ 16 then
    if point ≤ 0 then '0' :: '.' :: (zeros (-point).toNat ++ digits)
    else
      let whole := digits.take point.toNat ++ zeros (point.toNat - digits.length)
      let rest := digits.drop point.toNat
      whole ++ '.' :: (if rest.isEmpty then ['0'] else rest)
  else
    match digits with
    | [] => []
    | d :: rest =>
      d :: ((if rest.isEmpty then [] else '.' :: rest) ++ exponentChars (point - 1))

def text (x : Binary64) : String :=
  if x.isNan then "nan"
  else
    let sign := if x.negative then ['-'] else []
    if x.isInfinite then String.ofList (sign ++ "inf".toList)
    else if x.isZero then String.ofList (sign ++ "0.0".toList)
    else
      let (raw, scale) := x.shortest
      let (digits, exponent) := stripZeros 20 raw scale
      let chars := digitChars digits
      String.ofList (sign ++ layout chars (exponent + chars.length))

def digitsValue (cs : List Char) : Nat :=
  cs.foldl (fun n c => 10 * n + (c.toNat - '0'.toNat)) 0

def isDigitChar (c : Char) : Bool := '0' ≤ c && c ≤ '9'

/-- An exponent after `e`: an optional sign and digits. -/
def readExponent : List Char → Option Int
  | [] => some 0
  | c :: rest =>
    if c = 'e' || c = 'E' then
      let (negative, digits) := match rest with
        | '-' :: ds => (true, ds)
        | '+' :: ds => (false, ds)
        | ds => (false, ds)
      if digits.isEmpty || !digits.all isDigitChar then none
      else
        let n : Int := digitsValue digits
        some (if negative then -n else n)
    else none

/-- Reads a decimal with optional sign, fraction and exponent, or one of the special names. -/
def ofText? (s : String) : Option Binary64 :=
  let (negative, body) := match s.toList with
    | '-' :: rest => (true, rest)
    | '+' :: rest => (false, rest)
    | rest => (false, rest)
  if body = "nan".toList then some nan
  else if body = "inf".toList then some (infinity negative)
  else
    let whole := body.takeWhile isDigitChar
    let afterWhole := body.dropWhile isDigitChar
    let (frac, rest) := match afterWhole with
      | '.' :: more => (more.takeWhile isDigitChar, more.dropWhile isDigitChar)
      | more => ([], more)
    if whole.isEmpty && frac.isEmpty then none
    else
      (readExponent rest).map fun e =>
        ofDecimal negative (digitsValue (whole ++ frac)) (e - frac.length)

end Binary64

end DocStore
