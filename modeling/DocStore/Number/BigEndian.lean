/-! Naturals as bytes, the most significant first. -/

namespace DocStore

namespace BigEndian

/-- The bytes of a number in a width; what does not fit is dropped at the front. -/
def bytes : Nat → Nat → List UInt8
  | 0, _ => []
  | width + 1, n => bytes width (n / 256) ++ [UInt8.ofNat (n % 256)]

def value (bs : List UInt8) : Nat := bs.foldl (fun n b => 256 * n + b.toNat) 0

/-- A word of a width as a signed number. -/
def signed (width n : Nat) : Int :=
  if 2 * n < Nat.pow 256 width then n else (n : Int) - Nat.pow 256 width

end BigEndian

end DocStore
