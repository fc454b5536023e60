import ShiftReduce.Symbol

set_option autoImplicit false

/-! # Actions and conflicts -/

namespace ShiftReduce

/-- A production is named by its place in its grammar. -/
abbrev ProductionId := Nat

/-- A state is named by its place in its automaton. -/
abbrev StateId := Nat

inductive Action where
  | shift (target : StateId)
  | reduce (production : ProductionId)
  | accept
deriving DecidableEq, Repr, Inhabited

/-- A cell with more than one candidate. They are listed in order of precedence. -/
structure Conflict where
  state : StateId
  lookahead : Symbol
  candidates : List Action
deriving DecidableEq, Repr

end ShiftReduce
