import ShiftReduce.Session

set_option autoImplicit false

/-! # Calls

What can be asked of a session about its grammar's own tables, one call after the other. Between two
calls the session may be replaced by a copy of itself. -/

namespace ShiftReduce

namespace Session

/-! ## Tables that are kept -/

/-- The tables that a session keeps. -/
inductive Table where
  | first
  | follow
  | automaton
  | actions
deriving DecidableEq, Repr

/-- What is told when the table of the grammar is computed. -/
def Table.records (g : Grammar) (h : g.IsContextFree) : Table → List LogRecord
  | first => []
  | follow => [g.followTable.record]
  | automaton => [(Automaton.ofGrammar (g.augmented h)).record]
  | actions => (ActionTable.tabulate (g.tableSource h)).records

/-! ## Calls -/

/-- A copy of the session, with the tables that the session keeps. -/
def clone (s : Session) : Session where
  grammar := s.grammar
  first? := s.first?
  follow? := s.follow?
  automaton? := s.automaton?
  actions? := s.actions?
  log := s.log

/-- A question for a table or for the augmented grammar, or a copy of the session put in its
    place. -/
inductive Call where
  | first
  | follow
  | augmented
  | automaton
  | actionTable
  | clone
deriving DecidableEq, Repr

namespace Call

/-- What the call is answered with, unless it is refused. -/
def Answer : Call → Type
  | first => FirstTable
  | follow => FollowTable
  | augmented => AugmentedGrammar
  | automaton => Automaton
  | actionTable => ActionTable
  | clone => Unit

def query : (k : Call) → Query k.Answer
  | first => Session.first
  | follow => Session.follow
  | augmented => Session.augmented
  | automaton => Session.automaton
  | actionTable => Session.actionTable
  | clone => modify Session.clone

/-- The tables that the answer takes, in the order in which they are computed. -/
def tables : Call → List Table
  | first => [.first]
  | follow => [.first, .follow]
  | automaton => [.automaton]
  | actionTable => [.first, .follow, .automaton, .actions]
  | augmented | clone => []

end Call

/-- The session about the grammar after the given calls. -/
def after (g : Grammar) (calls : List Call) : Session :=
  calls.foldl (fun s k => (k.query.run s).2) { grammar := g }

theorem after_concat (g : Grammar) (calls : List Call) (k : Call) :
    after g (calls ++ [k]) = (k.query.run (after g calls)).2 := by
  simp [after, List.foldl_append]

end Session

/-- The table whose computation is told of. A record of a conflict tells of none. -/
def LogRecord.table? : LogRecord → Option Session.Table
  | follow .. => some .follow
  | automaton .. => some .automaton
  | actionTable .. => some .actions
  | conflict .. => none

end ShiftReduce
