import ShiftReduce.Log

set_option autoImplicit false

/-! # Sessions

A session is a grammar with the tables that have been asked for so far. A table is computed when it
is needed for the first time, together with those that it is built from, and each computation leaves
a record in the log. A refused ACTION table is kept too, so that asking again gives the same
conflicts. -/

namespace ShiftReduce

structure Session where
  grammar : Grammar
  first? : Option FirstTable := none
  follow? : Option FollowTable := none
  automaton? : Option Automaton := none
  actions? : Option (Except GrammarError ActionTable) := none
  log : List LogRecord := []

/-- A question to a session. The session goes on after an error, too. -/
abbrev Query (α : Type) := ExceptT GrammarError (StateM Session) α

namespace Session

/-- Appends records to the log. -/
def note (records : List LogRecord) : Query Unit :=
  modify fun s => { s with log := s.log ++ records }

/-- The records since the log was last taken. -/
def takeLog (s : Session) : List LogRecord × Session :=
  (s.log, { s with log := [] })

/-! ## Tables of the grammar -/

/-- The augmented grammar, for a context-free grammar. -/
def augmented : Query AugmentedGrammar := do
  ofExcept (← get).grammar.augment

def first : Query FirstTable := do
  let _ ← augmented
  let s ← get
  match s.first? with
  | some t => return t
  | none =>
    let t := s.grammar.firstTable
    modify fun s => { s with first? := some t }
    return t

def follow : Query FollowTable := do
  let first ← first
  let s ← get
  match s.follow? with
  | some t => return t
  | none =>
    let g := s.grammar
    let t := FollowTable.ofProductions g.productions g.nonterminals g.start first
    note [t.record]
    modify fun s => { s with follow? := some t }
    return t

def automaton : Query Automaton := do
  let g ← augmented
  match (← get).automaton? with
  | some a => return a
  | none =>
    let a := Automaton.ofGrammar g
    note [a.record]
    modify fun s => { s with automaton? := some a }
    return a

def actionTable : Query ActionTable := do
  let follow ← follow
  let automaton ← automaton
  let s ← get
  match s.actions? with
  | some answer => ofExcept answer
  | none =>
    let source : TableSource := ⟨automaton, follow, s.grammar.terminals, s.grammar.options⟩
    let table := ActionTable.tabulate source
    note table.records
    let answer := table.enforce source.options
    modify fun s => { s with actions? := some answer }
    ofExcept answer

/-! ## Tables beside those of the grammar -/

/-- The automaton, computed anew and not kept. -/
def freshAutomaton : Query Automaton := do
  let a := Automaton.ofGrammar (← augmented)
  note [a.record]
  return a

/-- The FOLLOW table refined by other productions with the FIRST table of the grammar, and whether
    a set got a new member. Without other productions those of the grammar are taken. -/
def refinedFollow (ps? : Option (List Production)) : Query (FollowTable × Bool) := do
  let t ← follow
  return t.refine (ps?.getD (← get).grammar.productions) (← first)

/-- What a table shall be built from instead of the grammar's own terminals and options, and the
    productions by which its FOLLOW table shall be refined first. -/
structure Changes where
  terminals? : Option SymbolSet := none
  options? : Option TableOptions := none
  refineBy? : Option (List Production) := none

/-- What a table is built from after the given changes. -/
def source (changes : Changes) : Query TableSource := do
  let follow ← match changes.refineBy? with
    | some ps => Prod.fst <$> refinedFollow (some ps)
    | none => follow
  let automaton ← automaton
  let g := (← get).grammar
  return ⟨automaton, follow, changes.terminals?.getD g.terminals, changes.options?.getD g.options⟩

def candidates (changes : Changes) (id : StateId) (lookahead : Symbol) : Query (List Action) := do
  ofExcept ((← source changes).candidates id lookahead)

/-- The ACTION table after the given changes, computed anew and not kept. -/
def freshActionTable (changes : Changes) : Query ActionTable := do
  let source ← source changes
  let table := ActionTable.tabulate source
  note table.records
  ofExcept (table.enforce source.options)

end Session

end ShiftReduce
