import DocStore.Number.BigEndian
import DocStore.Text.Integer
import DocStore.Text.Quoted

/-! Unique identifiers of 128 bits, written as hexadecimal in five groups. -/

namespace DocStore

structure Uuid where
  val : BitVec 128
  deriving DecidableEq, Inhabited

namespace Uuid

def ofNat (n : Nat) : Uuid := ⟨BitVec.ofNat 128 n⟩

def toNat (u : Uuid) : Nat := u.val.toNat

/-- The `n`-th identifier handed out: version four, variant one, counted in the last group. -/
def generated (n : Nat) : Uuid := ofNat (0x00000000000040008000000000000000 + n)

def hexDigits (u : Uuid) : List Char := Quoted.hex 32 u.toNat

def chars (u : Uuid) : List Char :=
  let h := u.hexDigits
  h.take 8 ++ '-' :: ((h.drop 8).take 4 ++ '-' :: ((h.drop 12).take 4 ++ '-' ::
    ((h.drop 16).take 4 ++ '-' :: h.drop 20)))

def text (u : Uuid) : String := String.ofList u.chars

def bytes (u : Uuid) : List UInt8 := BigEndian.bytes 16 u.toNat

def ofBytes? (bs : List UInt8) : Option Uuid :=
  if bs.length = 16 then some (ofNat (BigEndian.value bs)) else none

/-- Takes every occurrence of a word out of a text, from left to right. -/
def dropWord (word : List Char) : Nat → List Char → List Char
  | 0, cs => cs
  | _ + 1, [] => []
  | fuel + 1, c :: cs =>
    if word.isPrefixOf (c :: cs) then dropWord word fuel ((c :: cs).drop word.length)
    else c :: dropWord word fuel cs

def without (word : String) (cs : List Char) : List Char := dropWord word.toList cs.length cs

def isBrace (c : Char) : Bool := c == '\x7b' || c == '\x7d'

/-- Reads thirty-two hexadecimal digits, whatever hyphens, braces and scheme stand around. -/
def ofText? (s : String) : Option Uuid :=
  let cs := without "uuid:" (without "urn:" s.toList)
  let cs := ((cs.dropWhile isBrace).reverse.dropWhile isBrace).reverse
  let cs := cs.filter (· ≠ '-')
  if cs.length = 32 then
    (Integer.read? 16 cs).bind fun n =>
      if 0 ≤ n ∧ n < Nat.pow 2 128 then some (ofNat n.toNat) else none
  else none

end Uuid

end DocStore
