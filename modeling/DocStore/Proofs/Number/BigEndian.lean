import DocStore.Number.BigEndian
import Mathlib.Algebra.Group.Int.Defs
import Mathlib.Algebra.Group.Nat.Defs

/-! Numbers that fit into their width come back from their bytes. -/

namespace DocStore

namespace BigEndian

theorem length_bytes (width n : Nat) : (bytes width n).length = width := by
  induction width generalizing n with
  | zero => rfl
  | succ width ih => rw [bytes, List.length_append, ih]; rfl

theorem value_append (bs : List UInt8) (b : UInt8) :
    value (bs ++ [b]) = 256 * value bs + b.toNat := by
  simp [value]

theorem value_bytes {width n : Nat} (h : n < 256 ^ width) : value (bytes width n) = n := by
  induction width generalizing n with
  | zero =>
    have hn : n = 0 := by simpa using h
    rw [hn]
    rfl
  | succ width ih =>
    have hq : n / 256 < 256 ^ width := by
      rw [Nat.pow_succ] at h
      exact Nat.div_lt_of_lt_mul (by rwa [Nat.mul_comm] at h)
    have hb : (UInt8.ofNat (n % 256)).toNat = n % 256 := by
      simp
    rw [bytes, value_append, ih hq, hb]
    omega

/-- A negative number is stored as its complement to the number of words there are. -/
theorem signed_of_neg {width : Nat} {n : Int} (hn : n < 0) (h : -(256 ^ width : Int) ≤ 2 * n) :
    signed width (256 ^ width + n).toNat = n := by
  have hnat : (((256 : Nat) ^ width : Nat) : Int) = (256 : Int) ^ width := by simp
  have hbig : ¬ 2 * (256 ^ width + n).toNat < Nat.pow 256 width := by
    have hp : Nat.pow 256 width = 256 ^ width := rfl
    rw [hp]
    omega
  have hp : ((Nat.pow 256 width : Nat) : Int) = (256 : Int) ^ width := hnat
  rw [signed, if_neg hbig, hp]
  omega

end BigEndian

end DocStore
