import ShiftReduce.Action
import ShiftReduce.Production.Class
import ShiftReduce.Text.Quoted

set_option autoImplicit false

/-! # Errors

The ways in which building a grammar or asking one of its tables can fail, and their wording. -/

namespace ShiftReduce

inductive GrammarError where
  /-- `violated` is the first class of the hierarchy that does not admit the rule. -/
  | malformedProduction (violated : Production.Class) (left right : Word)
  | terminalAsNonterminal (name : String)
  | notATerminal (symbol : Symbol)
  | notANonterminal (symbol : Symbol)
  /-- The name is a terminal's and a nonterminal's. -/
  | ambiguousName (name : String)
  | startNotInAlphabet (symbol : Symbol)
  | missingStart
  | unknownSymbol (symbol : Symbol)
  /-- The tables exist for context-free grammars only, and the grammar's class is wider. -/
  | notContextFree (actual : Production.Class)
  | unknownState (state : StateId)
  | unknownLookahead (symbol : Symbol)
  | conflicts (cells : List Conflict)
deriving DecidableEq, Repr

/-! ## Wording -/

def Symbol.text : Symbol → String
  | terminal name => "Terminal(" ++ Quoted.encode name ++ ")"
  | nonterminal name => "Nonterminal(" ++ Quoted.encode name ++ ")"
  | start => "Start"
  | eof => "Eof"
  | dot => "Dot"

def Word.text (word : Word) : String :=
  "Word([" ++ ", ".intercalate (word.map Symbol.text) ++ "])"

def GrammarError.message : GrammarError → String
  | malformedProduction violated left right =>
    Word.text left ++ " -> " ++ Word.text right ++ " is not a " ++ violated.text ++ " production"
  | terminalAsNonterminal name =>
    "terminal " ++ Quoted.encode name ++ " cannot be used as a nonterminal"
  | notATerminal symbol => symbol.text ++ " is not a terminal"
  | notANonterminal symbol => symbol.text ++ " is not a nonterminal"
  | ambiguousName name =>
    Quoted.encode name ++ " is used both as a terminal and as a nonterminal"
  | startNotInAlphabet symbol =>
    "start symbol " ++ symbol.text ++ " is not in the nonterminal alphabet"
  | missingStart => "grammar has no start symbol"
  | unknownSymbol symbol =>
    symbol.text ++ " appears in a production but in neither alphabet"
  | notContextFree actual =>
    "LR tables need a context-free grammar, this one is " ++ actual.text
  | unknownState state => "state " ++ toString state ++ " is not in the canonical collection"
  | unknownLookahead symbol =>
    symbol.text ++ " is neither end-of-input nor a terminal of the grammar"
  | conflicts cells =>
    toString cells.length ++ " action table cells have more than one candidate"

/-- The symbol itself when it can stand where a nonterminal is needed. -/
def Symbol.toNonterminal : Symbol → Except GrammarError Symbol
  | terminal name => .error (.terminalAsNonterminal name)
  | nonterminal name => .ok (.nonterminal name)
  | start => .ok .start
  | eof => .error (.notANonterminal .eof)
  | dot => .error (.notANonterminal .dot)

end ShiftReduce
