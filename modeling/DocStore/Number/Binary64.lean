/-! Double-precision numbers as their 64 bits, read as exact dyadic values. Rounding a quotient
to the nearest double and comparing with integers are done on naturals, never in the machine. -/

namespace DocStore

structure Binary64 where
  bits : UInt64
  deriving DecidableEq, Inhabited

/-- A number compared exactly: `num / 2 ^ scale`, an infinity, or not a number at all. -/
inductive Exact
  | finite (num : Int) (scale : Nat)
  | infinite (negative : Bool)
  | nan
  deriving DecidableEq

namespace Exact

def ofInt (n : Int) : Exact := .finite n 0

/-- Numbers are ordered by value; nothing is ordered against NaN. -/
def compare : Exact → Exact → Option Ordering
  | .nan, _ => none
  | _, .nan => none
  | .infinite a, .infinite b => some (Ord.compare b a)
  | .infinite a, .finite _ _ => some (if a then .lt else .gt)
  | .finite _ _, .infinite b => some (if b then .gt else .lt)
  | .finite a s, .finite b t => some (Ord.compare (a * Nat.pow 2 t) (b * Nat.pow 2 s))

end Exact

namespace Binary64

def fractionLimit : Nat := Nat.pow 2 52

def negative (x : Binary64) : Bool := decide (Nat.pow 2 63 ≤ x.bits.toNat)

def magnitudeBits (x : Binary64) : Nat := x.bits.toNat % Nat.pow 2 63

def fraction (x : Binary64) : Nat := x.magnitudeBits % fractionLimit

def exponentField (x : Binary64) : Nat := x.magnitudeBits / fractionLimit

def infinityBits : Nat := 2047 * fractionLimit

def isNan (x : Binary64) : Bool := decide (infinityBits < x.magnitudeBits)

def isInfinite (x : Binary64) : Bool := decide (x.magnitudeBits = infinityBits)

def isZero (x : Binary64) : Bool := decide (x.magnitudeBits = 0)

/-- The integer significand of a finite double. -/
def significand (x : Binary64) : Nat :=
  if x.exponentField = 0 then x.fraction else fractionLimit + x.fraction

/-- A finite double is `significand * 2 ^ (binade - 1074)`. -/
def binade (x : Binary64) : Nat := x.exponentField - 1

def toExact (x : Binary64) : Exact :=
  if x.isNan then .nan
  else if x.isInfinite then .infinite x.negative
  else
    let m : Int := if x.negative then -(x.significand : Int) else x.significand
    if 1074 ≤ x.binade then .finite (m * Nat.pow 2 (x.binade - 1074)) 0
    else .finite m (1074 - x.binade)

def ofMagnitude (negative : Bool) (magnitude : Nat) : Binary64 :=
  ⟨UInt64.ofNat (magnitude + if negative then Nat.pow 2 63 else 0)⟩

def infinity (negative : Bool) : Binary64 := ofMagnitude negative infinityBits

def nan : Binary64 := ⟨0x7ff8000000000000⟩

def neg (x : Binary64) : Binary64 := ofMagnitude (!x.negative) x.magnitudeBits

/-- The quotient of two naturals as the nearest natural, a tie going to the even one. -/
def roundQuotient (num den : Nat) : Nat :=
  let q := num / den
  let twice := 2 * (num % den)
  if twice < den then q
  else if den < twice then q + 1
  else if q % 2 = 0 then q else q + 1

/-- The quotient of `num * 2 ^ 1074` and `den * 2 ^ binade`, as a rounded significand. -/
def significandAt (num den binade : Nat) : Nat :=
  roundQuotient (num * Nat.pow 2 1074) (den * Nat.pow 2 binade)

/-- The least binade whose significands reach the quotient, so that no bit is wasted. -/
def binadeOf (num den : Nat) : Nat := (num * Nat.pow 2 1074 / den).log2 - 52

/-- The double nearest to a quotient of naturals, a tie going to the even significand. -/
def ofQuotient (negative : Bool) (num den : Nat) : Binary64 :=
  let binade := binadeOf num den
  let magnitude := binade * fractionLimit + significandAt num den binade
  if infinityBits ≤ magnitude then infinity negative else ofMagnitude negative magnitude

/-- The double nearest to `digits * 10 ^ exponent`. -/
def ofDecimal (negative : Bool) (digits : Nat) (exponent : Int) : Binary64 :=
  if digits = 0 then ofMagnitude negative 0
  else if 0 ≤ exponent then
    if 400 < exponent then infinity negative
    else ofQuotient negative (digits * Nat.pow 10 exponent.toNat) 1
  else if digits.log2 + 400 < (-exponent).toNat then ofMagnitude negative 0
  else ofQuotient negative digits (Nat.pow 10 (-exponent).toNat)

def ofInt (n : Int) : Binary64 := ofQuotient (decide (n < 0)) n.natAbs 1

/-- The double nearest to a dyadic number; a zero takes the sign asked for. -/
def ofDyadic (num : Int) (scale : Nat) (negativeZero : Bool) : Binary64 :=
  if num = 0 then ofMagnitude negativeZero 0
  else ofQuotient (decide (num < 0)) num.natAbs (Nat.pow 2 scale)

/-- The difference of two doubles, rounded once. -/
def sub (x y : Binary64) : Binary64 :=
  match x.toExact, y.toExact with
  | .nan, _ => nan
  | _, .nan => nan
  | .infinite a, .infinite b => if a = b then nan else infinity a
  | .infinite a, .finite _ _ => infinity a
  | .finite _ _, .infinite b => infinity !b
  | .finite a s, .finite b t =>
    ofDyadic (a * Nat.pow 2 t - b * Nat.pow 2 s) (s + t)
      (x.isZero && y.isZero && x.negative && !y.negative)

def ofSingle (word : Nat) : Binary64 :=
  let negative := decide (Nat.pow 2 31 ≤ word)
  let magnitude := word % Nat.pow 2 31
  let exponent := magnitude / Nat.pow 2 23
  let fraction := magnitude % Nat.pow 2 23
  if exponent = 255 then
    ofMagnitude negative (infinityBits + if fraction = 0 then 0 else
      (fraction * Nat.pow 2 29) ||| Nat.pow 2 51)
  else if exponent = 0 then
    if fraction = 0 then ofMagnitude negative 0 else ofQuotient negative fraction (Nat.pow 2 149)
  else ofQuotient negative ((Nat.pow 2 23 + fraction) * Nat.pow 2 exponent) (Nat.pow 2 150)

end Binary64

end DocStore
