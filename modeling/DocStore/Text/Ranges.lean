/-! Classes of characters as lists of closed ranges of code points. -/

namespace DocStore

def inRanges (table : List (Nat × Nat)) (n : Nat) : Bool :=
  table.any fun r => r.1 ≤ n && n ≤ r.2

end DocStore
