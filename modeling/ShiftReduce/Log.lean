import ShiftReduce.ActionTable

set_option autoImplicit false

/-! # Log records

What is told when a table is computed. -/

namespace ShiftReduce

inductive LogLevel where
  | debug
  | trace
deriving DecidableEq, Repr

inductive LogRecord where
  | follow (nonterminals : Nat)
  | automaton (states edges : Nat)
  | conflict (state : StateId) (candidates : Nat)
  | actionTable (states entries conflicts : Nat)
deriving DecidableEq, Repr

namespace LogRecord

def level : LogRecord → LogLevel
  | conflict .. => .trace
  | follow .. | automaton .. | actionTable .. => .debug

def text : LogRecord → String
  | follow n => "computed FOLLOW for " ++ toString n ++ " nonterminals"
  | automaton n m =>
    "canonical collection: " ++ toString n ++ " states, " ++ toString m ++ " transitions"
  | conflict id n =>
    "state " ++ toString id ++ ": " ++ toString n ++ " candidates for one lookahead"
  | actionTable n m k =>
    "action table: " ++ toString n ++ " states, " ++ toString m ++ " entries, " ++ toString k ++
      " conflicts"

end LogRecord

def LogLevel.text : LogLevel → String
  | debug => "debug"
  | trace => "trace"

/-! ## Records of computations -/

def FollowTable.record (t : FollowTable) : LogRecord :=
  .follow t.size

def Automaton.record (a : Automaton) : LogRecord :=
  .automaton a.size a.edgeCount

/-- A record for each conflict, then one for the table. -/
def ActionTable.records (t : ActionTable) : List LogRecord :=
  t.conflicts.map (fun c => .conflict c.state c.candidates.length) ++
    [.actionTable t.size t.entryCount t.conflicts.length]

end ShiftReduce
