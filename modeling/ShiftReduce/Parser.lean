import ShiftReduce.ActionTable

set_option autoImplicit false

/-! # Table-driven parsing

How an ACTION table and its automaton are used: a stack of states, each above the symbol that led to
it, and the input that is left. A shift takes a symbol from the input to the stack, a reduction
replaces a right side on the stack by its left side. -/

namespace ShiftReduce

/-- A symbol on the stack and the state that it led to. -/
structure Frame where
  symbol : Symbol
  state : StateId
deriving DecidableEq, Repr

/-- The stack above the initial state, the top first, and the input that is left. -/
structure Configuration where
  stack : List Frame
  input : Word
deriving DecidableEq, Repr

/-- The state on top of the stack. -/
def topState (stack : List Frame) : StateId :=
  match stack with
  | [] => Automaton.initial
  | f :: _ => f.state

namespace Configuration

/-- The symbols on the stack from bottom to top. -/
def symbols (c : Configuration) : Word :=
  (c.stack.map Frame.symbol).reverse

/-- The first symbol of the input, or its end. -/
def lookahead (c : Configuration) : Symbol :=
  c.input.headD .eof

end Configuration

/-- The tables that a parser works with. -/
structure Parser where
  automaton : Automaton
  table : ActionTable

namespace Parser

/-- What the table says in a configuration. -/
def action? (P : Parser) (c : Configuration) : Option Action :=
  match P.table.action? (topState c.stack) c.lookahead with
  | .ok a => a
  | .error _ => none

/-- Takes the next symbol of the input to the stack. -/
def shift? (c : Configuration) (target : StateId) : Option Configuration :=
  match c.input with
  | s :: rest => some ⟨⟨s, target⟩ :: c.stack, rest⟩
  | [] => none

/-- Replaces the right side of a production, which is on top of the stack, by its left side. -/
def reduce? (P : Parser) (c : Configuration) (id : ProductionId) : Option Configuration := do
  let p ← P.automaton.grammar.production? id
  let s ← p.lhs?
  let rest := c.stack.drop p.right.length
  let target ← P.automaton.goto? (topState rest) s
  if p.right.length ≤ c.stack.length then some ⟨⟨s, target⟩ :: rest, c.input⟩ else none

/-- The configuration after the move that the table asks for, if there is one that can be made. -/
def next? (P : Parser) (c : Configuration) : Option Configuration :=
  match P.action? c with
  | some (.shift target) => shift? c target
  | some (.reduce id) => P.reduce? c id
  | some .accept | none => none

/-- Runs of the parser with the productions of their reductions, in the order in which these are
    made. -/
inductive Runs (P : Parser) : Configuration → List ProductionId → Configuration → Prop where
  | refl (c : Configuration) : P.Runs c [] c
  | shift {c d e : Configuration} {ids : List ProductionId} {target : StateId} :
    P.Runs c ids d → P.action? d = some (.shift target) → shift? d target = some e → P.Runs c ids e
  | reduce {c d e : Configuration} {ids : List ProductionId} {id : ProductionId} :
    P.Runs c ids d → P.action? d = some (.reduce id) → P.reduce? d id = some e →
    P.Runs c (ids ++ [id]) e

/-- Whether some run on the word ends where the table accepts, with the given reductions. -/
def Accepts (P : Parser) (w : Word) (ids : List ProductionId) : Prop :=
  ∃ c, P.Runs ⟨[], w⟩ ids c ∧ P.action? c = some .accept

end Parser

end ShiftReduce
