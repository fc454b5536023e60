set_option autoImplicit false

/-! # Options of the ACTION table -/

namespace ShiftReduce

/-- What happens when a cell of the table has more than one candidate. -/
inductive ConflictPolicy where
  /-- The table is refused. -/
  | reject
  /-- The first candidate is taken, and the conflict is noted in the table. -/
  | preferShift
deriving DecidableEq, Repr, Inhabited

structure TableOptions where
  onConflict : ConflictPolicy := .reject
  /-- Whether a complete item is reduced at the end of the input even when its left side cannot
      be followed by it. Without this the table is the plain SLR(1) one. -/
  reduceOnAnyEof : Bool := true
deriving DecidableEq, Repr, Inhabited

/-- Nothing is refused. -/
def TableOptions.lenient : TableOptions where
  onConflict := .preferShift

end ShiftReduce
