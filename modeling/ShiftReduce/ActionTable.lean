import ShiftReduce.Automaton
import ShiftReduce.Follow

set_option autoImplicit false

/-! # The ACTION table

What a parser may do in a state when it sees a lookahead: shift it, reduce by a production whose
right side is complete, or accept. The candidates of a cell come in this order, and the table holds
the first one. A cell with more than one is a conflict, for which the table is refused unless its
options prefer the first candidate.

**`ActionTable.build_eq_error_iff`**: refusing conflicts is the only way in which building fails. -/

namespace ShiftReduce

/-- What a table is built from. -/
structure TableSource where
  automaton : Automaton
  follow : FollowTable
  terminals : SymbolSet
  options : TableOptions

/-- The lookaheads that can be asked for: the end of the input and the terminals. -/
def IsLookahead (terminals : SymbolSet) (s : Symbol) : Prop :=
  s = .eof ∨ s ∈ terminals

instance (terminals : SymbolSet) (s : Symbol) : Decidable (IsLookahead terminals s) :=
  inferInstanceAs (Decidable (_ ∨ _))

namespace TableSource

/-! ## Candidates -/

def shifts (t : TableSource) (st : State) (lookahead : Symbol) : List Action :=
  if st.items.toList.any fun i => i.next? t.automaton.grammar = some lookahead then
    (st.edges[lookahead]?.map Action.shift).toList
  else []

/-- Whether a complete item with left side `lhs` may be reduced before the lookahead. `S′` never is,
    since that would be acceptance. -/
def mayReduce (t : TableSource) (lhs lookahead : Symbol) : Bool :=
  lhs != .start &&
    (lookahead == .eof && t.options.reduceOnAnyEof || t.follow.allows lhs lookahead)

/-- The production of a complete item that may be reduced. -/
def reduction? (t : TableSource) (lookahead : Symbol) (i : Item) : Option ProductionId := do
  let lhs ← i.lhs? t.automaton.grammar
  if i.isComplete t.automaton.grammar ∧ t.mayReduce lhs lookahead then some i.production else none

/-- The reductions in the order of the items. -/
def reductions (t : TableSource) (st : State) (lookahead : Symbol) : List Action :=
  (st.items.toList.filterMap (t.reduction? lookahead)).map Action.reduce

def acceptance (t : TableSource) (st : State) (lookahead : Symbol) : List Action :=
  if lookahead = .eof ∧ t.automaton.finalItem ∈ st.items then [.accept] else []

/-- The actions that qualify in a state, in order of precedence. -/
def candidatesIn (t : TableSource) (st : State) (lookahead : Symbol) : List Action :=
  t.shifts st lookahead ++ t.reductions st lookahead ++ t.acceptance st lookahead

/-- The actions that qualify, for a state of the automaton and a lookahead. -/
def candidates (t : TableSource) (id : StateId) (lookahead : Symbol) :
    Except GrammarError (List Action) :=
  match t.automaton.state? id with
  | none => .error (.unknownState id)
  | some st =>
    if IsLookahead t.terminals lookahead then .ok (t.candidatesIn st lookahead)
    else .error (.unknownLookahead lookahead)

/-! ## Cells -/

/-- The terminals in the order in which the productions first use them. -/
def usedTerminals (t : TableSource) : List Symbol :=
  ((t.automaton.grammar.productions.flatMap Production.symbols).filter
    (· ∈ t.terminals)).eraseDups

/-- The used terminals, then the unused ones, then the end of the input. -/
def lookaheads (t : TableSource) : List Symbol :=
  t.usedTerminals ++ t.terminals.toList.filter (· ∉ t.usedTerminals) ++ [.eof]

/-- The candidates for each lookahead, in the order of the lookaheads. -/
def cells (t : TableSource) (st : State) : List (Symbol × List Action) :=
  t.lookaheads.map fun s => (s, t.candidatesIn st s)

def row (t : TableSource) (st : State) : Std.ExtTreeMap Symbol Action :=
  .ofList ((t.cells st).filterMap fun (s, found) => found.head?.map fun a => (s, a))

def conflictsIn (t : TableSource) (st : State) (id : StateId) : List Conflict :=
  (t.cells st).filterMap fun (s, found) => if 1 < found.length then some ⟨id, s, found⟩ else none

end TableSource

/-! ## The tables of a grammar -/

namespace Grammar

def firstTable (g : Grammar) : FirstTable :=
  .ofProductions g.productions

def followTable (g : Grammar) : FollowTable :=
  .ofProductions g.productions g.nonterminals g.start g.firstTable

/-- What the grammar's own ACTION table is built from. -/
def tableSource (g : Grammar) (h : g.IsContextFree) : TableSource where
  automaton := .ofGrammar (g.augmented h)
  follow := g.followTable
  terminals := g.terminals
  options := g.options

end Grammar

/-- One row for each state, with the actions of its cells. -/
structure ActionTable where
  rows : List (Std.ExtTreeMap Symbol Action)
  terminals : SymbolSet
  conflicts : List Conflict
deriving DecidableEq

namespace ActionTable

/-! ## Building -/

/-- The table whether or not its conflicts are tolerated. -/
def tabulate (t : TableSource) : ActionTable where
  rows := t.automaton.states.map t.row
  terminals := t.terminals
  conflicts := t.automaton.states.zipIdx.flatMap fun (st, id) => t.conflictsIn st id

/-- The table, unless it has conflicts and they are to be refused. -/
def enforce (options : TableOptions) (table : ActionTable) : Except GrammarError ActionTable :=
  if table.conflicts ≠ [] ∧ options.onConflict = .reject then .error (.conflicts table.conflicts)
  else .ok table

def build (t : TableSource) : Except GrammarError ActionTable :=
  (tabulate t).enforce t.options

theorem build_eq_error_iff {t : TableSource} {e : GrammarError} :
    build t = .error e ↔ t.options.onConflict = .reject ∧ (tabulate t).conflicts ≠ [] ∧
      e = .conflicts (tabulate t).conflicts := by
  unfold build enforce
  split
  · next h => simp [h, eq_comm]
  · next h => simp; exact fun hr hc => (h ⟨hc, hr⟩).elim

theorem eq_tabulate_of_build {t : TableSource} {table : ActionTable} (h : build t = .ok table) :
    table = tabulate t := by
  unfold build enforce at h
  split at h <;> simp_all

/-! ## Queries -/

def size (t : ActionTable) : Nat :=
  t.rows.length

/-- The action for a state and a lookahead. `none` is a syntax error of the input. -/
def action? (t : ActionTable) (id : StateId) (lookahead : Symbol) :
    Except GrammarError (Option Action) :=
  match t.rows[id]? with
  | none => .error (.unknownState id)
  | some row =>
    if IsLookahead t.terminals lookahead then .ok row[lookahead]?
    else .error (.unknownLookahead lookahead)

/-- The lookaheads that have an action in the state. -/
def expected (t : ActionTable) (id : StateId) : Except GrammarError (List Symbol) :=
  match t.rows[id]? with
  | none => .error (.unknownState id)
  | some row => .ok row.keys

/-- The cells that hold an action, row by row. -/
def entries (t : ActionTable) : List (StateId × Symbol × Action) :=
  t.rows.zipIdx.flatMap fun (row, id) => row.toList.map fun (s, a) => (id, s, a)

def entryCount (t : ActionTable) : Nat :=
  t.entries.length

end ActionTable

end ShiftReduce
